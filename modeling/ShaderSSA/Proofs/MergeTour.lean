import ShaderSSA.Proofs.MergeWalk
import ShaderSSA.Proofs.Visiting

/-! The whole walk in a function that respects dominance. All that can be reached is seen, so that
nothing is left to merge; where nothing was to merge, nothing is changed. -/

namespace ShaderSSA

namespace Walk

variable {f : Function} {limit : Nat} {anc anc' seen seen' : List BlockId} {w : Walk}
  {b : BlockId}

variable [FloatOps]

theorem Sound.open (h : Sound f limit anc seen (w.func.blockInstrs b) w) :
    Sound f limit (b :: anc) (b :: seen) [] w := by
  have hp := h.tidy.linked.placed
  refine ⟨h.toScoped.open, h.evolves, fun j k hj hpass => ?_, fun p q key hp' hq' => ?_, h.still⟩
  · exact h.complete j k hj ((passed_open hp).mp hpass)
  · exact h.packed p q key ((passed_open hp).mp hp') ((passed_open hp).mp hq')

theorem Sound.enter (h : Sound f limit anc seen [] w) (hlimit : limit ≤ 4)
    (hr : f.blocks.Reachable b) (habove : ∀ p, p ∈ anc ↔ f.blocks.StrictlyDominates p b)
    (hbelow : ∀ c ∈ seen, ¬ f.blocks.Dominates b c) :
    ∃ w', w.enter limit b = .ok w' ∧ Sound f limit (b :: anc) (b :: seen) [] w' := by
  have hall : w.func.blockInstrs b = [] ++ (w.func.blockInstrs b ++ []) := by simp
  obtain ⟨w', done', hrun, hb, h'⟩ := adds_ok (fun h => h.tidy.linked.placed)
    (fun h hb => Sound.At.add (h := h) ⟨⟨hr, habove, hb⟩, hbelow⟩ hlimit) h hall
  rw [List.append_nil] at hb
  exact ⟨w', enter_eq.trans hrun, Sound.open (hb ▸ h')⟩

theorem Sound.leave (h : Sound f limit (b :: anc) seen [] w) (hb : b ∉ anc) :
    ∃ w', w.leave b = .ok w' ∧ Sound f limit anc seen [] w' := by
  obtain ⟨w', hrun, hfunc, hstats, hkept, h'⟩ := h.toScoped.leave
  refine ⟨w', hrun, h', hfunc ▸ h.evolves, fun j k hj hpass => ?_, hfunc ▸ h.packed,
    fun hpacked => ?_⟩
  · rw [hfunc] at hj hpass
    rcases hpass with hm | ⟨c, hc, hhome⟩
    · cases hm
    · have hopen : w.func.Passed (· ∈ b :: anc) [] j := .inr ⟨c, List.mem_cons_of_mem b hc, hhome⟩
      obtain ⟨k', hk'⟩ := Option.isSome_iff_exists.mp (h.complete j k hj hopen)
      refine Option.isSome_iff_exists.mpr ⟨k', (hkept j k').mpr ⟨fun he => hb ?_, hk'⟩⟩
      obtain rfl : c = b := by simpa [hhome] using he
      exact hc
  · rw [hfunc, hstats]
    exact h.still hpacked

theorem Sound.visits {visits : List DominatorTree.Visit} (hlimit : limit ≤ 4)
    (ht : f.blocks.Tours anc seen visits anc' seen') (h : Sound f limit anc seen [] w) :
    ∃ w', visits.foldlM (Walk.visit limit) w = .ok w' ∧ Sound f limit anc' seen' [] w' :=
  visits_ok (P := fun anc seen => Sound f limit anc seen [])
    (fun h hr habove hbelow => h.enter hlimit hr habove hbelow) (fun h hb => h.leave hb) ht h

end Walk

namespace Function

variable {f g : Function} {limit : Nat}

/-- No two instructions of one class, the first before the second, fit into one. -/
def Packed (f : Function) (limit : Nat) : Prop := f.PackedOn limit fun _ => True

namespace SameCode

theorem evolves [FloatOps] (h : f.SameCode g) (hf : f.Ssa) (hg : g.Tidy) : f.Evolves g := by
  have hs := h.reshaped
  have hkeeps : f.Keeps g := by
    refine .of_same hf.tidy.linked.sourced (by simp [hs.shape]) (fun v _ _ => ?_)
      (fun i b body hi hbody _ => ⟨by rw [hs.home, hi], by rw [hs.dest], by rw [h.body, hbody]⟩)
      fun i b body hi hbody _ => ⟨by rw [← hs.home, hi], by rw [← h.body, hbody]⟩
    simp only [Arithmetic, hs.source, h.body]
  refine hs.evolves hg (h.verified hf.verified) hkeeps ?_ ?_ ?_ ?_
  · intro b done i rest s v hr hb hv
    exact hf.dominance.operand b done i rest s v hr hb (h.reads ▸ hv)
  · intro b v hr hv
    exact hf.dominance.condition b v hr (h.condition ▸ hv)
  · intro vars io b done i rest e e₁ _ _ hstep
    simpa only [step?, destShape?, h.body, hs.dest, hs.shape] using hstep
  · intro vars io b t e n _ ht hn
    exact ⟨t, by rw [h.terminator, ht], hn⟩

theorem symm (h : f.SameCode g) : g.SameCode f := ⟨h.instrs.symm, h.values.symm, h.blocks.symm⟩

theorem inClass {i : InstrId} {key : ClassKey} (h : f.SameCode g) (hi : f.InClass i key) :
    g.InClass i key := by
  obtain ⟨srcs, v, width, hm⟩ := hi
  have hs := h.reshaped
  exact ⟨srcs, v, width, by rw [hs.home]; exact hm.linked, by rw [h.body, hm.body],
    by rw [hs.dest, hm.dest], by rw [hs.shape, hm.shape], hm.values, hm.notMove, hm.laneWise⟩

theorem packed (h : f.SameCode g) (hf : f.Packed limit) : g.Packed limit := by
  intro p q key hp hq hpk hqk hpq
  have hs := h.reshaped
  have hwidth : ∀ i, g.width i = f.width i := by
    intro i
    simp only [width, destShape?, hs.dest, hs.shape]
  rw [hwidth, hwidth]
  refine hf p q key hp hq (h.symm.inClass hpk) (h.symm.inClass hqk) ?_
  simpa only [Precedes, Before, hs.blocks, hs.home, h.blocks] using hpq

end SameCode

theorem Packed.of_passed {S : BlockId → Prop} (hf : f.Placed)
    (h : f.PackedOn limit (f.Passed S [])) (hS : ∀ b, f.blocks.Reachable b → S b) :
    f.Packed limit := by
  intro p q key _ _ hp hq hpq
  obtain ⟨b, c, hb, hc, hrb, hrc⟩ := hpq.homes hf
  exact h p q key (.inr ⟨b, hS b hrb, hb⟩) (.inr ⟨c, hS c hrc, hc⟩) hp hq hpq

/-- Merging succeeds, takes over from what was there, and leaves nothing to merge; where nothing
was to merge it changes nothing. -/
theorem Ssa.mergesAll [FloatOps] (hf : f.Ssa) (hlimit : limit ≤ 4) :
    ∃ changed counts g, f.MergesAll limit changed counts g ∧ f.Evolves g ∧ g.Packed limit ∧
      (f.Packed limit → changed = false ∧ f.SameCode g) := by
  have hsame := SameCode.requireDominance f
  obtain ⟨hf', seen, htours, hseen⟩ := hf.tidy.tours
  have hev : f.Evolves f.requireDominance.2 := hsame.evolves hf hf'
  obtain ⟨w, hrun, hw⟩ := (Walk.Sound.start hev.ssa).visits hlimit htours
  have hkept := SameCode.preserve w.func .all
  have hpacked : w.func.Packed limit := by
    refine .of_passed hw.tidy.linked.placed hw.packed fun b hb => (hseen b).mpr ?_
    exact hb.congr fun b => (hw.flow b).symm
  refine ⟨decide (0 < w.stats.merged), w.stats, w.func.preserve .all,
    mergesAll_of_tour hrun hw.eq_nil, (hev.trans hw.evolves).trans (hkept.evolves hw.evolves.ssa
      (hw.evolves.ssa.tidy.apply (e := .preserve .all) trivial rfl)), hkept.packed hpacked,
    fun hp => ?_⟩
  obtain ⟨hfunc, hmerged⟩ := hw.still (hsame.packed hp)
  refine ⟨by simp [hmerged], ?_⟩
  have hlast := hsame.trans (SameCode.preserve f.requireDominance.2 .all)
  rw [hfunc]
  exact hlast

theorem Ssa.of_check (hr : f.Reached) (hcheck : f.check = .ok (.ok ()))
    (hdom : f.DominanceRespecting) : f.Ssa :=
  have hv := verified_of_check hr.linked hcheck
  ⟨⟨hr, hv.small hr.linked⟩, hv, hdom⟩

/-- One walk takes over from what was there and leaves no two instructions of one class, the first
before the second on every way to it, that would fit into one; so another walk finds nothing to
do. -/
theorem mergeAll_packs [FloatOps] (hr : f.Reached) (hcheck : f.check = .ok (.ok ()))
    (hdom : f.DominanceRespecting) (hlimit : limit ≤ 4) :
    ∃ changed counts g, f.MergesAll limit changed counts g ∧ f.Evolves g ∧
      (∀ p q key, g.classOf p = .ok (some key) → g.classOf q = .ok (some key) →
        g.Precedes p q → limit < g.width p + g.width q) ∧
      ∃ counts' k, g.MergesAll limit false counts' k ∧ g.SameCode k := by
  obtain ⟨changed, counts, g, hg, hev, hpacked, -⟩ :=
    (Ssa.of_check hr hcheck hdom).mergesAll hlimit
  refine ⟨changed, counts, g, hg, hev, fun p q key hp hq hpq => ?_, ?_⟩
  · obtain ⟨b, c, hb, hc, -⟩ := hpq.homes hev.ssa.tidy.linked.placed
    have hdef := hev.ssa.tidy.linked.defined
    exact hpacked p q key trivial trivial (inClass_of_classOf hdef hb hp)
      (inClass_of_classOf hdef hc hq) hpq
  · obtain ⟨changed', counts', k, hk, -, -, hstill⟩ := hev.ssa.mergesAll hlimit
    obtain ⟨rfl, hsame⟩ := hstill hpacked
    exact ⟨counts', k, hk, hsame⟩

/-- Sums on two sides of an edge that are one sum, read by a product and by a store, and a loop. -/
def sumEdits : List Edit :=
  [.insert (.stop ⟨0⟩) (.const [3, 5]) (some ⟨2, 32⟩),
    .insert (.stop ⟨0⟩) (.const [0]) (some ⟨1, 32⟩),
    .insert (.stop ⟨0⟩) (.alu ⟨.iadd, [.channel ⟨0⟩ 0, .channel ⟨0⟩ 1]⟩) (some ⟨1, 32⟩),
    .addBlock, .addBlock, .setTerminator ⟨0⟩ (.jump ⟨1⟩),
    .insert (.stop ⟨1⟩) (.alu ⟨.iadd, [.channel ⟨0⟩ 1, .channel ⟨0⟩ 1]⟩) (some ⟨1, 32⟩),
    .insert (.stop ⟨1⟩) (.alu ⟨.imul, [.whole ⟨2⟩, .whole ⟨3⟩]⟩) (some ⟨1, 32⟩),
    .insert (.stop ⟨1⟩) (.access ⟨.storeOutput, 1, [⟨4⟩, ⟨1⟩], 0, 0, 1⟩) none,
    .insert (.stop ⟨1⟩) (.access ⟨.storeOutput, 1, [⟨3⟩, ⟨1⟩], 0, 1, 1⟩) none,
    .setTerminator ⟨1⟩ (.branch ⟨1⟩ ⟨1⟩ ⟨2⟩)]

theorem dominanceRespecting_sumEdits : (Edit.outcome sumEdits).DominanceRespecting :=
  dominanceRespecting_of_check (Reached.outcome sumEdits).linked (by decide +kernel)

theorem mergeAll_packs_sumEdits :
    (Edit.outcome sumEdits).Reached ∧ (Edit.outcome sumEdits).check = .ok (.ok ()) ∧
      (Edit.outcome sumEdits).DominanceRespecting ∧
      ∃ counts g, (Edit.outcome sumEdits).mergeAll 4 .zero = .ok (true, counts, g) ∧
        (Edit.outcome sumEdits).Evolves g ∧
        ∃ counts' k, g.MergesAll 4 false counts' k ∧ g.SameCode k := by
  have hreached := Reached.outcome sumEdits
  have hcheck : (Edit.outcome sumEdits).check = .ok (.ok ()) := rfl
  obtain ⟨changed, counts, g, hg, hev, -, hagain⟩ :=
    mergeAll_packs hreached hcheck dominanceRespecting_sumEdits (Nat.le_refl 4)
  have hcounts : ((Edit.outcome sumEdits).mergeWalk 4).toOption.map (fun r => (r.1, r.2.1)) =
      some (true, ⟨1, 1, 0, 0⟩) := by decide +kernel
  obtain ⟨rfl, rfl⟩ : changed = true ∧ counts = ⟨1, 1, 0, 0⟩ := by
    simpa [hg.walk, Except.toOption] using hcounts
  exact ⟨hreached, hcheck, dominanceRespecting_sumEdits, _, g, hg.totals .zero, hev, hagain⟩

end Function

theorem mergeFunctions_ok [FloatOps] {fs : List Function} {limit : Nat} (hf : ∀ f ∈ fs, f.Ssa)
    (hlimit : limit ≤ 4) :
    ∃ changed counts gs, mergeFunctions limit fs = .ok (changed, counts, gs) ∧
      List.Forall₂ (fun f g => f.Evolves g ∧ g.Packed limit) fs gs ∧
      ((∀ f ∈ fs, f.Packed limit) → changed = false ∧ List.Forall₂ Function.SameCode fs gs) := by
  induction fs with
  | nil => exact ⟨false, .zero, [], rfl, .nil, fun _ => ⟨rfl, .nil⟩⟩
  | cons f fs ih =>
    rw [List.forall_mem_cons] at hf
    obtain ⟨changed₁, counts₁, g, hg, hev, hpacked, hstill⟩ := hf.1.mergesAll hlimit
    obtain ⟨changed₂, counts₂, gs, hgs, hall, hstills⟩ := ih hf.2
    refine ⟨changed₁ || changed₂, counts₁.plus counts₂, g :: gs, ?_, .cons ⟨hev, hpacked⟩ hall,
      fun hp => ?_⟩
    · simp only [mergeFunctions, hg.walk, ok_bind, hgs]
      rfl
    · rw [List.forall_mem_cons] at hp
      obtain ⟨rfl, hsame⟩ := hstill hp.1
      obtain ⟨rfl, hsames⟩ := hstills hp.2
      exact ⟨rfl, .cons hsame hsames⟩

/-- Merging in a shader that passes the check and respects dominance keeps what its runs leave
outside, whatever the floating-point opcodes compute. -/
theorem Shader.mergeAll_preserves [FloatOps] (s : Shader) (limit : Nat)
    (hreached : ∀ f ∈ s.functions, f.Reached) (hcheck : s.check = .ok (.ok ()))
    (hdom : ∀ f ∈ s.functions, f.DominanceRespecting) (hlimit : limit ≤ 4) :
    ∃ changed stats s', s.mergeAll limit = .ok (changed, stats, s') ∧ ∀ io io' n,
      s.run io n = some ⟨io', none⟩ → ∃ n', s'.run io n' = some ⟨io', none⟩ := by
  have hssa : ∀ f ∈ s.functions, f.Ssa := fun f hf =>
    .of_check (hreached f hf) (Checking.forM_passes.mp hcheck f hf) (hdom f hf)
  obtain ⟨changed, stats, functions, hrun, hall, -⟩ := mergeFunctions_ok hssa hlimit
  refine ⟨changed, stats, { s with functions }, ?_, fun io io' n => ?_⟩
  · simp only [Shader.mergeAll, hrun, ok_bind]
    rfl
  · refine Shader.run_of_refines (fun f hf => (hreached f hf).linked.defined) ?_
    exact hall.imp fun f g h => ⟨h.1.ssa.tidy.linked.defined, h.1.refines s.vars⟩

def sumShader : Shader := ⟨.fragment, .empty, [Edit.outcome Function.sumEdits]⟩

theorem mergeAll_preserves_sumShader :
    (Edit.outcome Function.sumEdits).Reached ∧ sumShader.check = .ok (.ok ()) ∧
      (Edit.outcome Function.sumEdits).DominanceRespecting ∧
      sumShader.run ⟨[], [], []⟩ 9 = some ⟨⟨[], [], [(⟨0, 0⟩, 80), (⟨0, 1⟩, 10)]⟩, none⟩ ∧
      ∃ changed stats s' n', sumShader.mergeAll 4 = .ok (changed, stats, s') ∧
        s'.run ⟨[], [], []⟩ n' = some ⟨⟨[], [], [(⟨0, 0⟩, 80), (⟨0, 1⟩, 10)]⟩, none⟩ := by
  have hreached := Function.Reached.outcome Function.sumEdits
  have hcheck : sumShader.check = .ok (.ok ()) := rfl
  have hrun : sumShader.run ⟨[], [], []⟩ 9 =
      some ⟨⟨[], [], [(⟨0, 0⟩, 80), (⟨0, 1⟩, 10)]⟩, none⟩ := Shader.run_eq_some (by decide +kernel)
  obtain ⟨changed, stats, s', hs', hpreserves⟩ := Shader.mergeAll_preserves sumShader 4
    (by simpa [sumShader] using hreached) hcheck
    (by simpa [sumShader] using Function.dominanceRespecting_sumEdits) (Nat.le_refl 4)
  obtain ⟨n', hn'⟩ := hpreserves _ _ 9 hrun
  exact ⟨hreached, hcheck, Function.dominanceRespecting_sumEdits, hrun, changed, stats, s', n', hs',
    hn'⟩

end ShaderSSA
