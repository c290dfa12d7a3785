import ShaderSSA.Proofs.FlatSplit
import ShaderSSA.Proofs.MergeTour
import ShaderSSA.Proofs.VarMeaning

/-! What is done stays done. Rewriting that leaves places alone brings back no access to split and
no deref to sweep, and where nothing is left to do a pass changes nothing. -/

namespace ShaderSSA

namespace Function

variable {T : Terms} {vars : Variables} {f g : Function} {i : InstrId} {b : BlockId}
  {stage : Stage} {modes : Mode}

theorem Sound.ssa (h : f.Sound T vars) (hexact : T.exact) (hordered : T.ordered) : f.Ssa :=
  ⟨h.tidy, ⟨h.closed, fun i b body hi hbody => (h.bodies i b body hi hbody).fits hexact⟩,
    h.ordered hordered⟩

/-- Deref accesses read chains from variables. -/
def Chained (stage : Stage) (modes : Mode) (vars : Variables) (f : Function) : Prop :=
  ∀ i b a, f.home? i = some b → f.body? i = some (.access a) → a.kind.isDerefAccess →
    a.Chained stage modes vars f

section Places

variable (h : f.SamePlaces g) (hf : f.Closed) (hchained : f.Chained stage modes vars)

include h hf hchained

theorem SamePlaces.varLeft (hleft : g.VarLeft stage modes vars b i) :
    f.VarLeft stage modes vars b i := by
  have ⟨hi, a, _, _, _, _, _, hbody, hkind, _⟩ := hleft
  have hplace : (Body.access a).isPlaceSlot 0 := by simp [Body.isPlaceSlot, hkind]
  obtain ⟨body, hif, hbodyf, hp⟩ := h.only i b _ hi hbody hplace
  obtain ⟨-, -, ρ, hρ, hfix⟩ := h.kept i b body hif hbodyf hp
  exact hleft.of_kept hf (.refl vars) (hchained i b · hif) hif hbodyf hρ hfix
    fun _ _ _ _ _ hv hc => h.chain hf hv hc

theorem SamePlaces.chained : g.Chained stage modes vars := by
  intro i b a hi hbody hkind
  have hplace : (Body.access a).isPlaceSlot 0 := by simp [Body.isPlaceSlot, hkind]
  obtain ⟨body, hif, hbodyf, hp⟩ := h.only i b _ hi hbody hplace
  obtain ⟨-, -, ρ, hρ, hfix⟩ := h.kept i b body hif hbodyf hp
  obtain ⟨a', rfl, rfl⟩ := Body.mapSrcs_eq_access.mp (Option.some.inj (hρ.symm.trans hbody))
  obtain ⟨v, root, x, n, t, hv, hx, hchain, hlimit⟩ := hchained i b a' hif hbodyf hkind
  have hlive : f.Live v := hf.live_src hif hbodyf (List.mem_of_getElem? hv)
  refine ⟨v, root, x, n, t, ?_, hx, h.chain hf hlive hchain, hlimit⟩
  simp [hv, hfix v hlive hchain.isPlace]

end Places

theorem SamePlaces.dead (h : f.SamePlaces g) (hf : f.Sound T vars) (hT : T.apart)
    (hg : g.Defined) (hdead : g.Dead i) : f.Dead i := by
  obtain ⟨⟨b, hi⟩, ⟨d, hd⟩, hunread⟩ := hdead
  obtain ⟨body, hif, hbodyf, hp⟩ := h.only i b _ hi hd rfl
  obtain ⟨-, hsource, ρ, hρ, -⟩ := h.kept i b body hif hbodyf hp
  have hderef : body.deref?.isSome := by
    rw [← Body.deref?_mapSrcs body ρ, ← Option.some.inj (hd.symm.trans hρ)]
    rfl
  obtain ⟨d', hd'⟩ := Option.isSome_iff_exists.mp hderef
  obtain rfl := Body.deref?_eq_some.mp hd'
  refine ⟨⟨b, hif⟩, ⟨d', hbodyf⟩, fun v hv => ?_⟩
  have hs : f.source? v = some i := (hf.tidy.linked.defined.iff i v).mp hv
  have hplace : f.isPlace v := by
    rw [isPlace_eq hs hbodyf]
    rfl
  have hlive : f.Live v := ⟨i, b, hs, hif⟩
  obtain ⟨hread, -⟩ := hunread v ((hg.iff i v).mpr (hsource v hs))
  refine ⟨fun u hu => ?_, fun c hc => ?_⟩
  · obtain ⟨c, body', hc, hbody', hslot⟩ := reads?_iff.mp hu
    obtain ⟨hzero, hp'⟩ := Body.isPlaceSlot_zero
      ((hf.bodies u.instr c body' hc hbody').apart hT u.slot v hslot hplace)
    obtain ⟨hc', -, ρ', hρ', hfix⟩ := h.kept u.instr c body' hc hbody' hp'
    refine hread ⟨u.instr, 0⟩ (reads?_iff.mpr ⟨c, _, hc', hρ', ?_⟩)
    rw [Body.getElem?_srcs_mapSrcs, ← hzero, hslot, Option.map_some, hzero, hfix v hlive hplace]
  · simp [hf.conditions hT c v hc] at hplace

theorem Keeps.flatLeft (h : f.Keeps g) (hleft : g.FlatLeft modes b i) : f.FlatLeft modes b i := by
  obtain ⟨hi, a, hbody, hw, hs⟩ := hleft
  obtain ⟨body, hif, hbodyf, halu⟩ := h.only i b _ hi hbody rfl
  obtain ⟨-, -, ρ, hρ, -⟩ := h.other i b body hif hbodyf halu
  obtain ⟨a', rfl, rfl⟩ := Body.mapSrcs_eq_access.mp (Option.some.inj (hρ.symm.trans hbody))
  exact ⟨hif, a', hbodyf, hw, hs⟩

end Function

theorem foldlM_idle {σ α β : Type} {step : β → α → StateT σ Checked β} {l : List α} {b : β} {s : σ}
    (h : ∀ a ∈ l, (step b a).run s = .ok (b, s)) : (l.foldlM step b).run s = .ok (b, s) := by
  induction l with
  | nil => rfl
  | cons a l ih =>
    rw [List.foldlM_cons, StateT.run_bind, h a List.mem_cons_self, ok_bind]
    exact ih fun c hc => h c (List.mem_cons_of_mem a hc)

theorem mapM_idle {σ α : Type} {m : α → StateT σ Checked α} {l : List α} {s : σ}
    (h : ∀ a ∈ l, (m a).run s = .ok (a, s)) : (l.mapM m).run s = .ok (l, s) := by
  induction l with
  | nil => rfl
  | cons a l ih =>
    simp only [List.mapM_cons, StateT.run_bind, h a List.mem_cons_self, ok_bind,
      ih fun c hc => h c (List.mem_cons_of_mem a hc)]
    rfl

namespace Function

variable {vars : Variables} {f : Function} {stage : Stage} {modes : Mode}

theorem splitVars_idle {s : Splitting} (hf : f.Placed) (hchained : f.Chained stage modes s.vars)
    (hleft : ∀ b i, ¬ f.VarLeft stage modes s.vars b i) :
    (f.splitVars stage modes).run s = .ok (f, s) := by
  refine foldlM_idle fun b _ => foldlM_idle fun i hi => ?_
  have hb := hf.mem_iff.mp hi
  exact splitVarInstr_skip hb (hchained i b · hb) (hleft b i)

theorem splitFlat_idle (hf : f.Placed) (hleft : ∀ b i, ¬ f.FlatLeft modes b i)
    (stats : SplitStats) : (f.splitFlat modes).run stats = .ok (f, stats) := by
  refine foldlM_idle fun b _ => foldlM_idle fun i hi => ?_
  exact splitFlatInstr_skip (hf.mem_iff.mp hi) (hleft b i) stats

theorem sweepDerefs_idle (hf : f.Tidy) (hdead : ∀ i, ¬ f.Dead i) : f.sweepDerefs = .ok f := by
  have hnil : f.deadDerefs = [] :=
    List.eq_nil_iff_forall_not_mem.mpr fun i hi => hdead i ((mem_deadDerefs hf).mp hi)
  simp only [sweepDerefs, sweepWithin, hnil]
  rfl

end Function

namespace Shader

variable {s : Shader} {modes : Mode}

theorem splitVars_idle (hf : ∀ f ∈ s.functions, f.Tidy)
    (hchained : ∀ f ∈ s.functions, f.Chained s.stage modes s.vars)
    (hleft : ∀ f ∈ s.functions, ∀ b i, ¬ f.VarLeft s.stage modes s.vars b i)
    (hdead : ∀ f ∈ s.functions, ∀ i, ¬ f.Dead i) : s.splitVars modes = .ok (.zero, s) := by
  have hsplit : (s.functions.mapM (Function.splitVars s.stage modes)).run
      ⟨s.vars, [], .zero⟩ = .ok (s.functions, ⟨s.vars, [], .zero⟩) :=
    mapM_idle fun f hm =>
      Function.splitVars_idle (hf f hm).linked.placed (hchained f hm) (hleft f hm)
  have hsweep : s.functions.mapM (·.sweepDerefs) = .ok s.functions := by
    have hsame : List.Forall₂ (fun f g => f = g ∧ g ∈ s.functions) s.functions s.functions :=
      List.forall₂_same.mpr fun f hm => ⟨rfl, hm⟩
    obtain ⟨l, hl, heq⟩ := mapM_ok (m := (·.sweepDerefs)) (S := Eq) hsame fun f g hg =>
      ⟨g, Function.sweepDerefs_idle (hf g hg.2) (hdead g hg.2), rfl⟩
    rw [hl, ← (List.forall₂_eq_eq_eq ▸ heq : s.functions = l)]
  simp only [splitVars, hsplit, ok_bind, sweepDerefs, hsweep]
  rfl

theorem splitFlat_idle (hf : ∀ f ∈ s.functions, f.Placed)
    (hleft : ∀ f ∈ s.functions, ∀ b i, ¬ f.FlatLeft modes b i) :
    s.splitFlat modes = .ok (.zero, s) := by
  have hsplit : (s.functions.mapM (Function.splitFlat modes)).run .zero =
      .ok (s.functions, .zero) :=
    mapM_idle fun f hm => Function.splitFlat_idle (hf f hm) (hleft f hm) .zero
  simp only [splitFlat, hsplit, ok_bind]
  rfl

end Shader

end ShaderSSA
