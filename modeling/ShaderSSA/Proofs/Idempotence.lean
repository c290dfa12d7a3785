import ShaderSSA.Proofs.Safety

/-! A second run of a pipeline finds nothing to do. Each pass leaves nothing that a pass of the next
run would take up, and none of the later ones brings such a thing back. -/

namespace ShaderSSA

open Checked

variable {σ : Type} {config : PipelineConfig} {stage : Stage} {vars : Variables}

namespace Function

/-- Nothing is left to do in a function. -/
structure Settled (config : PipelineConfig) (stage : Stage) (vars : Variables) (f : Function) :
    Prop where
  ssa : f.Ssa
  chained : f.Chained stage config.splitVars vars
  left : config.splitVars.isEmpty = false → ∀ b i, ¬ f.VarLeft stage config.splitVars vars b i
  swept : config.splitVars.isEmpty = false → ∀ i, ¬ f.Dead i
  flat : config.splitFlat.isEmpty = false → ∀ b i, ¬ f.FlatLeft config.splitFlat b i
  packed : config.merge → f.Packed config.mergeLimit

/-- Merging takes nothing of the splits back. -/
theorem MergesOn.settled [FloatOps] {g : Function} (h : g.MergesOn config stage True vars)
    (hpacked : config.merge → g.Packed config.mergeLimit) : g.Settled config stage vars := by
  obtain ⟨f, ⟨⟨hsound, hleft, hswept⟩, hflat⟩, hev⟩ := h
  have hplaces : f.SamePlaces g :=
    hev.keeps.samePlaces hsound.tidy.linked.defined hev.ssa.tidy.linked.defined
  have hchained : f.Chained stage config.splitVars vars := fun i b a hi =>
    hsound.chained trivial hi a
  exact
    { ssa := hev.ssa
      chained := hplaces.chained hsound.closed hchained
      left := fun hon b i h => hleft hon b i (hplaces.varLeft hsound.closed hchained h)
      swept := fun hon i h =>
        hswept trivial hon i (hplaces.dead hsound trivial hev.ssa.tidy.linked.defined h)
      flat := fun hon b i h => hflat hon b i (hev.keeps.flatLeft h)
      packed := hpacked }

end Function

namespace Shader

/-- The same variables, and functions with the same code. -/
structure SameCode (s t : Shader) : Prop where
  stage : t.stage = s.stage
  vars : t.vars = s.vars
  functions : List.Forall₂ Function.SameCode s.functions t.functions

/-- Nothing is left to do in a shader. -/
def Settled (config : PipelineConfig) (s : Shader) : Prop :=
  ∀ f ∈ s.functions, f.Settled config s.stage s.vars

variable {s : Shader}

theorem SameCode.refl (s : Shader) : s.SameCode s :=
  ⟨rfl, rfl, List.forall₂_same.mpr fun f _ => .refl f⟩

theorem Settled.check (h : s.Settled config) : s.check = .ok (.ok ()) :=
  check_of_ssa fun f hm => (h f hm).ssa

end Shader

namespace Pass

variable {s : Shader}

theorem splitVars_idle (h : s.Settled config) (hon : config.splitVars.isEmpty = false) (state : σ) :
    (splitVars config.splitVars ignore).run state s = .ok (false, state, s) := by
  have hidle : s.splitVars config.splitVars = .ok (.zero, s) :=
    Shader.splitVars_idle (fun f hm => (h f hm).ssa.tidy) (fun f hm => (h f hm).chained)
      (fun f hm => (h f hm).left hon) fun f hm => (h f hm).swept hon
  simp only [splitVars, split, hidle, ok_bind]
  rfl

theorem splitFlat_idle (h : s.Settled config) (hon : config.splitFlat.isEmpty = false) (state : σ) :
    (splitFlat config.splitFlat ignore).run state s = .ok (false, state, s) := by
  have hidle : s.splitFlat config.splitFlat = .ok (.zero, s) :=
    Shader.splitFlat_idle (fun f hm => (h f hm).ssa.tidy.linked.placed) fun f hm =>
      (h f hm).flat hon
  simp only [splitFlat, split, hidle, ok_bind]
  rfl

theorem merge_idle (h : s.Settled config) (hlimit : config.mergeLimit ≤ 4)
    (hon : config.merge) (state : σ) :
    ∃ t, (merge config.mergeLimit ignore).run state s = .ok (false, state, t) ∧ s.SameCode t ∧
      t.check = .ok (.ok ()) := by
  obtain ⟨changed, stats, gs, hgs, hall, hstill⟩ :=
    mergeFunctions_ok (fun f hm => (h f hm).ssa) hlimit
  obtain ⟨rfl, hsame⟩ := hstill fun f hm => (h f hm).packed hon
  refine ⟨{ s with functions := gs }, ?_, ⟨rfl, rfl, hsame⟩, Shader.check_of_ssa fun g hg => ?_⟩
  · simp only [merge, Shader.mergeAll, hgs, ok_bind]
    rfl
  · obtain ⟨f, -, hev, -⟩ := exists_of_forall₂ hall hg
    exact hev.ssa

end Pass

namespace Session

variable {t : Session σ} {phase : Phase}

theorem runPhase_idle (ht : config.Lines t.passes) (hphase : phase ≠ .optimize)
    (hsettled : t.shader.Settled config)
    (hidle : ∀ pass ∈ config.pass? phase, ∀ state : σ,
      pass.run state t.shader = .ok (false, state, t.shader)) :
    Ends False (t.runPhase config phase) (t.Advances config fun changed s =>
      changed = false ∧ s = t.shader) := by
  refine runPhase_once ht (fun pass hpass state => ?_) (fun _ => ⟨rfl, rfl⟩) ?_ hphase
  · rw [hidle pass hpass state]
    exact ⟨rfl, rfl⟩
  · rintro _ _ _ ⟨-, rfl⟩
    exact hsettled.check

theorem splitVars_idle (ht : config.Lines t.passes) (hsettled : t.shader.Settled config) :
    Ends False (t.runPhase config .preLowering) (t.Advances config fun changed s =>
      changed = false ∧ s = t.shader) := by
  refine runPhase_idle ht (by simp) hsettled fun pass hpass state => ?_
  simp only [PipelineConfig.pass?] at hpass
  split_ifs at hpass with hon
  · cases hpass
  · obtain rfl : Pass.splitVars config.splitVars Pass.ignore = pass := by simpa using hpass
    exact Pass.splitVars_idle hsettled (by simpa using hon) state

theorem splitFlat_idle (ht : config.Lines t.passes) (hsettled : t.shader.Settled config) :
    Ends False (t.runPhase config .postLowering) (t.Advances config fun changed s =>
      changed = false ∧ s = t.shader) := by
  refine runPhase_idle ht (by simp) hsettled fun pass hpass state => ?_
  simp only [PipelineConfig.pass?] at hpass
  split_ifs at hpass with hon
  · cases hpass
  · obtain rfl : Pass.splitFlat config.splitFlat Pass.ignore = pass := by simpa using hpass
    exact Pass.splitFlat_idle hsettled (by simpa using hon) state

theorem merge_idle (hlimit : config.mergeLimit ≤ 4) (ht : config.Lines t.passes)
    (hsettled : t.shader.Settled config) :
    Ends False (t.runPhase config .optimize) fun changed u => changed = false ∧
      u.stats.passesChanged = t.stats.passesChanged ∧ u.stats.rounds = t.stats.rounds + 1 ∧
      t.shader.SameCode u.shader := by
  have hround : Ends False (t.runRound config.check .optimize) (t.Advances config fun changed s =>
      changed = false ∧ t.shader.SameCode s ∧ s.check = .ok (.ok ())) := by
    refine runRound_ends ht ?_ ?_ fun _ _ _ hs => hs.2.2
    · intro pass hpass state
      simp only [PipelineConfig.pass?] at hpass
      split_ifs at hpass with hon
      · obtain rfl : Pass.merge config.mergeLimit Pass.ignore = pass := by simpa using hpass
        obtain ⟨s, hs, hsame, hcheck⟩ := Pass.merge_idle hsettled hlimit hon state
        rw [hs]
        exact ⟨rfl, hsame, hcheck⟩
      · cases hpass
    · exact fun _ => ⟨rfl, .refl t.shader, hsettled.check⟩
  have hstill : Ends False (t.runRound config.check .optimize) fun changed u => changed = false ∧
      u.stats.passesChanged = t.stats.passesChanged ∧ u.stats.rounds = t.stats.rounds ∧
      t.shader.SameCode u.shader := by
    refine hround.imp ?_
    rintro changed u ⟨-, ⟨rfl, hsame, -⟩, hchanges, hrounds⟩
    exact ⟨rfl, hchanges, hrounds, hsame⟩
  refine (runPhase_repeated fun rounds => runRounds_still hstill).imp ?_
  rintro _ _ ⟨_, rfl, rfl, u, rfl, hchanges, hrounds, hsame⟩
  exact ⟨rfl, hchanges, congrArg (· + 1) hrounds, hsame⟩

end Session

namespace Pipeline

theorem run_idle (hlimit : config.mergeLimit ≤ 4) (state : σ) {s : Shader}
    (hs : s.Settled config) :
    ∃ t, (Pipeline.ofConfig config state).run s = .ok (.ok false, t) ∧
      t.stats.passesChanged = 0 ∧ t.stats.rounds = 1 ∧ s.SameCode t.shader := by
  have hphases : Session.Ends False
      (Session.runPhases config Phase.all ⟨(Pipeline.ofConfig config state).passes, s,
        { PipelineStats.zero with initialSize := s.size }⟩) fun changed t => changed = false ∧
      t.stats.passesChanged = 0 ∧ t.stats.rounds = 1 ∧ s.SameCode t.shader := by
    refine Session.runPhases_ends (Session.splitVars_idle (config.lines_ofConfig state) hs) ?_
    rintro _ t ⟨ht, ⟨rfl, rfl⟩, hchanges, hrounds⟩
    refine Session.runPhases_ends (Session.splitFlat_idle ht hs) ?_
    rintro _ u ⟨hu, ⟨rfl, hshader⟩, hchanges', hrounds'⟩
    rw [← hshader] at hs
    refine Session.runPhases_ends (Session.merge_idle hlimit hu hs) ?_
    rintro _ v ⟨rfl, hchanges'', hrounds'', hsame⟩
    refine ⟨false, v, rfl, rfl, ?_, ?_, hshader ▸ hsame⟩
    · rw [hchanges'', hchanges', hchanges]
      rfl
    · rw [hrounds'', hrounds', hrounds]
      rfl
  have hrun : Session.Ends False ((Pipeline.ofConfig config state).run s) fun changed t =>
      changed = false ∧ t.stats.passesChanged = 0 ∧ t.stats.rounds = 1 ∧ s.SameCode t.shader :=
    hphases.bind fun changed t ht => ⟨changed, _, rfl, ht⟩
  obtain ⟨_, hrun, _, t, rfl, rfl, ht⟩ := Gives.exists hrun
  exact ⟨t, hrun, ht⟩

/-- After a run that succeeds, another of the same configuration changes nothing: no pass reports a
change, the repeated phase has one round, and variables and code are as they were. -/
theorem run_idempotent (config : PipelineConfig) (hlimit : config.mergeLimit ≤ 4) (state fresh : σ)
    (s : Shader) (hreached : ∀ f ∈ s.functions, f.Reached) (hcheck : s.check = .ok (.ok ()))
    (hdom : ∀ f ∈ s.functions, f.DominanceRespecting)
    (hready : ∀ f ∈ s.functions, f.IoReady s.stage config.splitVars s.vars)
    (hapart : ∀ f ∈ s.functions, f.PlacesApart) {changed : Bool} {t : Session σ}
    (hrun : (Pipeline.ofConfig config state).run s = .ok (.ok changed, t)) :
    ∃ u, (Pipeline.ofConfig config fresh).run t.shader = .ok (.ok false, u) ∧
      u.stats.passesChanged = 0 ∧ u.stats.rounds = 1 ∧ t.shader.SameCode u.shader := by
  have hverified := Shader.verified_of_check hreached hcheck
  have hsound : ∀ f ∈ s.functions, f.Sound (config.terms s.stage True) s.vars := fun f hf =>
    (hready f hf).sound (hreached f hf) (hverified f hf) (hdom f hf) fun _ => hapart f hf
  obtain ⟨_, u, hu, -, hstage, hdone⟩ :=
    Gives.of_ok (run_ends hlimit state rfl hsound (.inl trivial)) hrun
  obtain ⟨-, rfl⟩ : Except.ok changed = Except.ok _ ∧ t = u := Prod.mk.inj hu
  refine run_idle hlimit fresh fun f hf => ?_
  rw [hstage]
  exact (hdone f hf).1.settled (hdone f hf).2

end Pipeline

theorem run_idempotent_arrayShader :
    (Edit.outcome arrayEdits).Reached ∧ arrayShader.check = .ok (.ok ()) ∧
      (Edit.outcome arrayEdits).DominanceRespecting ∧
      (Edit.outcome arrayEdits).IoReady .fragment .inOut arrayVars ∧
      (Edit.outcome arrayEdits).PlacesApart ∧
      ∃ t u, (Pipeline.ofConfig .full ()).run arrayShader = .ok (.ok true, t) ∧
        (Pipeline.ofConfig .full ()).run t.shader = .ok (.ok false, u) ∧
        u.stats.passesChanged = 0 ∧ u.stats.rounds = 1 ∧ t.shader.SameCode u.shader := by
  have hreached := Function.Reached.outcome arrayEdits
  have hdom := Function.dominanceRespecting_of_check hreached.linked (by decide +kernel)
  have hready : (Edit.outcome arrayEdits).IoReady .fragment .inOut arrayVars := by decide +kernel
  have hapart : (Edit.outcome arrayEdits).PlacesApart := by decide +kernel
  have hcheck : arrayShader.check = .ok (.ok ()) := rfl
  have hchanged : ((Pipeline.ofConfig .full ()).run arrayShader).toOption.any
      (·.1.toOption = some true) = true := by decide +kernel
  obtain ⟨t, ht⟩ : ∃ t, (Pipeline.ofConfig .full ()).run arrayShader = .ok (.ok true, t) := by
    cases hrun : (Pipeline.ofConfig .full ()).run arrayShader with
    | error e => simp [hrun, Except.toOption] at hchanged
    | ok r =>
      obtain ⟨verdict | changed, t⟩ := r <;> simp [hrun, Except.toOption] at hchanged
      exact ⟨t, by rw [hchanged]⟩
  obtain ⟨u, hu⟩ := Pipeline.run_idempotent .full (by decide) () () arrayShader
    (by simpa [arrayShader] using hreached) hcheck (by simpa [arrayShader] using hdom)
    (by simpa [arrayShader, PipelineConfig.full] using hready)
    (by simpa [arrayShader] using hapart) ht
  exact ⟨hreached, hcheck, hdom, hready, hapart, t, u, ht, hu⟩

end ShaderSSA
