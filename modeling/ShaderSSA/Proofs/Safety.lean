import ShaderSSA.Proofs.Pipelines
import ShaderSSA.Proofs.Stability

/-! No pass breaks a shader. Each pass keeps what the passes after it rely on, so a pipeline runs to
its end and leaves a shader without defects. -/

namespace ShaderSSA

open Checked

variable {σ : Type} {lax apart : Prop} {config : PipelineConfig} {stage : Stage} {s : Shader}

theorem SplitStats.changed_gives {stats : SplitStats}
    (h : lax ∨ stats.loads + stats.stores < 2 ^ 64) : Gives lax stats.changed fun _ => True := by
  have hbound : 1 <<< 64 = 2 ^ 64 := rfl
  simp only [SplitStats.changed, Checked.fit, hbound]
  split_ifs with hlt
  · trivial
  · exact h.resolve_right hlt

/-- What is asked of the functions of a shader. -/
abbrev PipelineConfig.terms (config : PipelineConfig) (stage : Stage) (apart : Prop) : Terms :=
  Function.ioTerms stage config.splitVars apart

namespace Function

/-- Variables are split, if they are to be. -/
structure VarsDone (config : PipelineConfig) (stage : Stage) (apart : Prop) (vars : Variables)
    (f : Function) : Prop where
  sound : f.Sound (config.terms stage apart) vars
  left : config.splitVars.isEmpty = false → ∀ b i, ¬ f.VarLeft stage config.splitVars vars b i
  swept : apart → config.splitVars.isEmpty = false → ∀ i, ¬ f.Dead i

/-- Flat accesses are split too. -/
structure SplitsDone (config : PipelineConfig) (stage : Stage) (apart : Prop) (vars : Variables)
    (f : Function) : Prop where
  vars : f.VarsDone config stage apart vars
  flat : config.splitFlat.isEmpty = false → ∀ b i, ¬ f.FlatLeft config.splitFlat b i

/-- What merging makes of split code. -/
def MergesOn [FloatOps] (config : PipelineConfig) (stage : Stage) (apart : Prop) (vars : Variables)
    (g : Function) : Prop :=
  ∃ f : Function, f.SplitsDone config stage apart vars ∧ f.Evolves g

theorem VarsDone.ssa {vars : Variables} {f : Function} (h : f.VarsDone config stage apart vars) :
    f.Ssa :=
  h.sound.ssa trivial trivial

theorem VarsDone.mono {vars : Variables} {f g : Function} (h : f.VarsDone config stage apart vars)
    (hplaces : f.SamePlaces g) (hg : g.Sound (config.terms stage apart) vars) :
    g.VarsDone config stage apart vars := by
  refine ⟨hg, fun hon b i hleft => h.left hon b i ?_, fun ha hon i hdead => h.swept ha hon i ?_⟩
  · exact hplaces.varLeft h.sound.closed (fun i b a hi => h.sound.chained trivial hi a) hleft
  · exact hplaces.dead h.sound ha hg.tidy.linked.defined hdead

theorem splitFlatEach_ok {vars : Variables} {T : Terms} (hT : T.flat) (modes : Mode)
    {fs : List Function} (hf : ∀ f ∈ fs, f.Sound T vars) (stats : SplitStats) :
    ∃ gs stats', (fs.mapM (splitFlat modes)).run stats = .ok (gs, stats') ∧
      stats'.loads + stats'.stores + wideCount gs ≤ stats.loads + stats.stores + wideCount fs ∧
      List.Forall₂ (fun f g => g.Sound T vars ∧ f.SamePlaces g ∧
        ∀ b i, ¬ g.FlatLeft modes b i) fs gs := by
  induction fs generalizing stats with
  | nil => exact ⟨[], stats, rfl, le_refl _, .nil⟩
  | cons f fs ih =>
    obtain ⟨g, stats₁, hg, hsound, hdone, hnone⟩ :=
      splitFlat_ok (hf f List.mem_cons_self) hT modes stats
    obtain ⟨gs, stats₂, hgs, hcount, hall⟩ :=
      ih (fun k hk => hf k (List.mem_cons_of_mem f hk)) stats₁
    have hcount₁ := hdone.count
    refine ⟨g :: gs, stats₂, ?_, ?_, .cons ⟨hsound, hdone.places, hnone⟩ hall⟩
    · simp only [List.mapM_cons, StateT.run_bind, hg, hgs, ok_bind]
      rfl
    · simp only [wideCount, List.map_cons, List.sum_cons] at hcount ⊢
      omega

end Function

namespace Pass

variable {lax apart : Prop} {config : PipelineConfig} {stage : Stage} {s : Shader}

theorem splitVars_gives (state : σ) (hstage : s.stage = stage)
    (hf : ∀ f ∈ s.functions, f.Sound (config.terms stage apart) s.vars)
    (hsize : lax ∨ wideCount s.functions < 2 ^ 64) :
    Gives lax ((splitVars config.splitVars ignore).run state s) fun r => r.2.2.stage = stage ∧
      wideCount r.2.2.functions ≤ wideCount s.functions ∧
      ∀ f ∈ r.2.2.functions, f.VarsDone config stage apart r.2.2.vars := by
  obtain ⟨stats, s', hs', hstage', hcount, hall⟩ :=
    Shader.splitVars_ok (T := config.terms stage apart) trivial hstage.symm hf
  have hchanged : Gives lax stats.changed fun _ => True :=
    SplitStats.changed_gives (hsize.imp_right fun h => by omega)
  have hmodes : config.splitVars = (config.terms stage apart).modes := rfl
  simp only [splitVars, split, ignore, pure_bind, hmodes, hs', ok_bind]
  refine hchanged.bind fun changed _ => ⟨hstage'.trans hstage, ?_, fun g hg => ?_⟩
  · exact (Nat.le_add_left _ _).trans hcount
  · obtain ⟨f, -, h⟩ := exists_of_forall₂ hall hg
    exact ⟨h.sound, fun _ => h.none, fun _ _ => h.swept⟩

theorem splitFlat_gives (state : σ) (hstage : s.stage = stage)
    (hf : ∀ f ∈ s.functions, f.VarsDone config stage apart s.vars)
    (hsize : lax ∨ wideCount s.functions < 2 ^ 64) :
    Gives lax ((splitFlat config.splitFlat ignore).run state s) fun r => r.2.2.stage = stage ∧
      ∀ f ∈ r.2.2.functions, f.SplitsDone config stage apart r.2.2.vars := by
  obtain ⟨gs, stats, hgs, hcount, hall⟩ := Function.splitFlatEach_ok
    (T := config.terms stage apart) trivial config.splitFlat (fun f hm => (hf f hm).sound) .zero
  have hchanged : Gives lax stats.changed fun _ => True :=
    SplitStats.changed_gives (hsize.imp_right fun h => by
      simp only [SplitStats.zero] at hcount
      omega)
  simp only [splitFlat, split, ignore, pure_bind, Shader.splitFlat, hgs, ok_bind]
  refine hchanged.bind fun changed _ => ⟨hstage, fun g hg => ?_⟩
  obtain ⟨f, hm, hsound, hplaces, hflat⟩ := exists_of_forall₂ hall hg
  exact ⟨(hf f hm).mono hplaces hsound, fun _ => hflat⟩

theorem merge_gives [FloatOps] (state : σ) (hstage : s.stage = stage)
    (hlimit : config.mergeLimit ≤ 4)
    (hf : ∀ f ∈ s.functions, f.MergesOn config stage apart s.vars) :
    Gives lax ((merge config.mergeLimit ignore).run state s) fun r => r.2.2.stage = stage ∧
      ∀ f ∈ r.2.2.functions, f.MergesOn config stage apart r.2.2.vars ∧
        f.Packed config.mergeLimit := by
  have hssa : ∀ f ∈ s.functions, f.Ssa := by
    intro f hm
    obtain ⟨_, -, hev⟩ := hf f hm
    exact hev.ssa
  obtain ⟨changed, stats, gs, hgs, hall, -⟩ := mergeFunctions_ok hssa hlimit
  simp only [merge, ignore, pure_bind, Shader.mergeAll, hgs, ok_bind]
  refine ⟨hstage, fun g hg => ?_⟩
  obtain ⟨f, hm, hev, hpacked⟩ := exists_of_forall₂ hall hg
  obtain ⟨k, hk, hkf⟩ := hf f hm
  exact ⟨⟨k, hk, hkf.trans hev⟩, hpacked⟩

end Pass

theorem Shader.check_of_ssa (h : ∀ f ∈ s.functions, f.Ssa) : s.check = .ok (.ok ()) :=
  Shader.check_of_verified fun f hf => ⟨(h f hf).tidy, (h f hf).verified⟩

namespace Session

variable {t : Session σ}

theorem splitVars_ends (ht : config.Lines t.passes) (hstage : t.shader.stage = stage)
    (hf : ∀ f ∈ t.shader.functions, f.Sound (config.terms stage apart) t.shader.vars)
    (hsize : lax ∨ wideCount t.shader.functions < 2 ^ 64) :
    Ends lax (t.runPhase config .preLowering) (t.Advances config fun _ s => s.stage = stage ∧
      wideCount s.functions ≤ wideCount t.shader.functions ∧
      ∀ f ∈ s.functions, f.VarsDone config stage apart s.vars) := by
  refine runPhase_once ht ?_ ?_ ?_ (by simp)
  · intro pass hpass state
    simp only [PipelineConfig.pass?] at hpass
    split_ifs at hpass with hon
    · cases hpass
    · obtain rfl : Pass.splitVars config.splitVars Pass.ignore = pass := by simpa using hpass
      exact Pass.splitVars_gives state hstage hf hsize
  · intro hpass
    have hempty : config.splitVars.isEmpty = true := by simpa [PipelineConfig.pass?] using hpass
    exact ⟨hstage, le_refl _, fun f hm => ⟨hf f hm, by simp [hempty], by simp [hempty]⟩⟩
  · intro _ _ s hs
    exact Shader.check_of_ssa fun f hm => (hs.2.2 f hm).ssa

theorem splitFlat_ends (ht : config.Lines t.passes) (hstage : t.shader.stage = stage)
    (hf : ∀ f ∈ t.shader.functions, f.VarsDone config stage apart t.shader.vars)
    (hsize : lax ∨ wideCount t.shader.functions < 2 ^ 64) :
    Ends lax (t.runPhase config .postLowering) (t.Advances config fun _ s => s.stage = stage ∧
      ∀ f ∈ s.functions, f.SplitsDone config stage apart s.vars) := by
  refine runPhase_once ht ?_ ?_ ?_ (by simp)
  · intro pass hpass state
    simp only [PipelineConfig.pass?] at hpass
    split_ifs at hpass with hon
    · cases hpass
    · obtain rfl : Pass.splitFlat config.splitFlat Pass.ignore = pass := by simpa using hpass
      exact Pass.splitFlat_gives state hstage hf hsize
  · intro hpass
    have hempty : config.splitFlat.isEmpty = true := by simpa [PipelineConfig.pass?] using hpass
    exact ⟨hstage, fun f hm => ⟨hf f hm, by simp [hempty]⟩⟩
  · intro _ _ s hs
    exact Shader.check_of_ssa fun f hm => (hs.2 f hm).vars.ssa

variable [FloatOps]

theorem mergeRound_ends (hlimit : config.mergeLimit ≤ 4) (ht : config.Lines t.passes)
    (hstage : t.shader.stage = stage)
    (hf : ∀ f ∈ t.shader.functions, f.MergesOn config stage apart t.shader.vars) :
    Ends lax (t.runRound config.check .optimize) (t.Advances config fun _ s => s.stage = stage ∧
      ∀ f ∈ s.functions, f.MergesOn config stage apart s.vars ∧
        (config.merge → f.Packed config.mergeLimit)) := by
  refine runRound_ends ht ?_ ?_ ?_
  · intro pass hpass state
    simp only [PipelineConfig.pass?] at hpass
    split_ifs at hpass with hon
    · obtain rfl : Pass.merge config.mergeLimit Pass.ignore = pass := by simpa using hpass
      refine (Pass.merge_gives state hstage hlimit hf).imp fun r hr => ⟨hr.1, fun f hm => ?_⟩
      exact ⟨(hr.2 f hm).1, fun _ => (hr.2 f hm).2⟩
    · cases hpass
  · intro hpass
    have hoff : config.merge = false := by simpa [PipelineConfig.pass?] using hpass
    exact ⟨hstage, fun f hm => ⟨hf f hm, by simp [hoff]⟩⟩
  · intro _ _ s hs
    refine Shader.check_of_ssa fun f hm => ?_
    obtain ⟨⟨_, -, hev⟩, -⟩ := hs.2 f hm
    exact hev.ssa

/-- What the shader of a session is like once everything has run. -/
def Finished (config : PipelineConfig) (stage : Stage) (apart : Prop) (t : Session σ) : Prop :=
  config.Lines t.passes ∧ t.shader.stage = stage ∧
    ∀ f ∈ t.shader.functions, f.MergesOn config stage apart t.shader.vars ∧
      (config.merge → f.Packed config.mergeLimit)

theorem merge_ends (hlimit : config.mergeLimit ≤ 4) (ht : config.Lines t.passes)
    (hstage : t.shader.stage = stage)
    (hf : ∀ f ∈ t.shader.functions, f.SplitsDone config stage apart t.shader.vars) :
    Ends lax (t.runPhase config .optimize) fun _ u => u.Finished config stage apart := by
  have hrounds : ∀ rounds, Ends lax (t.runRounds config.check .optimize (rounds + 1))
      fun _ u => u.Finished config stage apart := by
    intro rounds
    refine runRounds_ends (I := fun u => config.Lines u.passes ∧ u.shader.stage = stage ∧
      ∀ f ∈ u.shader.functions, f.MergesOn config stage apart u.shader.vars) ?_ ?_
      ⟨ht, hstage, fun f hm => ⟨f, hf f hm, (hf f hm).vars.ssa.refl⟩⟩
    · rintro u ⟨hu, hstage, hf⟩
      exact (mergeRound_ends hlimit hu hstage hf).imp fun _ v hv => ⟨hv.lines, hv.shader⟩
    · rintro u ⟨hu, hstage, hf⟩
      exact ⟨hu, hstage, fun f hm => (hf f hm).1⟩
  refine (runPhase_repeated hrounds).imp ?_
  rintro _ _ ⟨u, rfl, hu⟩
  exact hu

end Session

/-- A run of the passes that a configuration asks for, up to counts that leave their range. -/
theorem Pipeline.run_ends [FloatOps] (hlimit : config.mergeLimit ≤ 4) (state : σ)
    (hstage : s.stage = stage) (hf : ∀ f ∈ s.functions, f.Sound (config.terms stage apart) s.vars)
    (hsize : lax ∨ wideCount s.functions < 2 ^ 64) :
    Session.Ends lax ((Pipeline.ofConfig config state).run s) fun _ t =>
      t.Finished config stage apart := by
  have hphases : Session.Ends lax
      (Session.runPhases config Phase.all ⟨(Pipeline.ofConfig config state).passes, s,
        { PipelineStats.zero with initialSize := s.size }⟩) fun _ t =>
      t.Finished config stage apart := by
    refine Session.runPhases_ends (Session.splitVars_ends (config.lines_ofConfig state) hstage hf
      hsize) fun _ t ht => ?_
    obtain ⟨hstage₁, hcount, hf₁⟩ := ht.shader
    refine Session.runPhases_ends (Session.splitFlat_ends ht.lines hstage₁ hf₁
      (hsize.imp_right (lt_of_le_of_lt hcount))) fun _ u hu => ?_
    refine Session.runPhases_ends (Session.merge_ends hlimit hu.lines hu.shader.1 hu.shader.2)
      fun _ v hv => ?_
    exact ⟨false, v, rfl, hv⟩
  exact hphases.bind fun changed t ht => ⟨changed, _, rfl, ht⟩

theorem wideCount_le_size (s : Shader) : wideCount s.functions ≤ s.size := by
  have hle : ∀ fs : List Function,
      wideCount fs ≤ fs.foldr (fun f n => f.liveInstrs.length + n) 0 := by
    intro fs
    induction fs with
    | nil => exact le_refl _
    | cons f fs ih =>
      have hf : f.wideAccesses.length ≤ f.liveInstrs.length := List.length_filter_le _ _
      simp only [wideCount, List.map_cons, List.sum_cons, List.foldr_cons] at ih ⊢
      omega
  exact hle s.functions

/-- A pipeline runs to its end on a well-formed shader, whose size is a machine word, and leaves one
without defects, with every operand defined at a dominating point. -/
theorem Pipeline.run_safe (config : PipelineConfig) (hlimit : config.mergeLimit ≤ 4) (state : σ)
    (s : Shader) (hreached : ∀ f ∈ s.functions, f.Reached) (hcheck : s.check = .ok (.ok ()))
    (hdom : ∀ f ∈ s.functions, f.DominanceRespecting)
    (hready : ∀ f ∈ s.functions, f.IoReady s.stage config.splitVars s.vars)
    (hsize : s.size < 2 ^ 64) :
    ∃ changed t, (Pipeline.ofConfig config state).run s = .ok (.ok changed, t) ∧
      t.shader.check = .ok (.ok ()) ∧ ∀ f ∈ t.shader.functions, f.DominanceRespecting := by
  have hverified := Shader.verified_of_check hreached hcheck
  have hsound : ∀ f ∈ s.functions, f.Sound (config.terms s.stage False) s.vars := fun f hf =>
    (hready f hf).sound (hreached f hf) (hverified f hf) (hdom f hf) False.elim
  obtain ⟨_, hrun, changed, t, rfl, -, -, hdone⟩ := Gives.exists (Pipeline.run_ends hlimit state rfl
    hsound (.inr (lt_of_le_of_lt (wideCount_le_size s) hsize)))
  have hssa : ∀ f ∈ t.shader.functions, f.Ssa := by
    intro f hf
    obtain ⟨⟨_, -, hev⟩, -⟩ := hdone f hf
    exact hev.ssa
  exact ⟨changed, t, hrun, Shader.check_of_ssa hssa, fun f hf => (hssa f hf).dominance⟩

theorem run_safe_arrayShader :
    (Edit.outcome arrayEdits).Reached ∧ arrayShader.check = .ok (.ok ()) ∧
      (Edit.outcome arrayEdits).DominanceRespecting ∧
      (Edit.outcome arrayEdits).IoReady .fragment .inOut arrayVars ∧ arrayShader.size < 2 ^ 64 ∧
      ∃ t, (Pipeline.ofConfig .full ()).run arrayShader = .ok (.ok true, t) ∧
        t.shader.check = .ok (.ok ()) ∧ ∀ f ∈ t.shader.functions, f.DominanceRespecting := by
  have hreached := Function.Reached.outcome arrayEdits
  have hdom := Function.dominanceRespecting_of_check hreached.linked (by decide +kernel)
  have hready : (Edit.outcome arrayEdits).IoReady .fragment .inOut arrayVars := by decide +kernel
  have hcheck : arrayShader.check = .ok (.ok ()) := rfl
  have hsize : arrayShader.size < 2 ^ 64 := by decide +kernel
  obtain ⟨changed, t, ht, hcheck', hdom'⟩ := Pipeline.run_safe .full (by decide) () arrayShader
    (by simpa [arrayShader] using hreached) hcheck (by simpa [arrayShader] using hdom)
    (by simpa [arrayShader, PipelineConfig.full] using hready) hsize
  have hchanged : ((Pipeline.ofConfig .full ()).run arrayShader).toOption.any
      (·.1.toOption = some true) = true := by decide +kernel
  obtain rfl : changed = true := by simpa [ht, Except.toOption] using hchanged
  exact ⟨hreached, hcheck, hdom, hready, hsize, t, ht, hcheck', hdom'⟩

end ShaderSSA
