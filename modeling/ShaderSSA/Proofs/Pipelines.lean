import ShaderSSA.Pipeline
import ShaderSSA.Proofs.Acceptance

/-! Running pipelines. What a pass does in its phase carries over to rounds and to the phase, as
long as nothing that it leaves has a defect. -/

namespace ShaderSSA

namespace Registered

variable {σ : Type}

/-- What stays of an entry when its pass runs. -/
def kind (r : Registered σ) : Pass σ × Phase := (r.pass, r.phase)

end Registered

namespace PipelineConfig

variable {σ : Type}

/-- The pass that runs in a phase, if the configuration asks for it. -/
def pass? (config : PipelineConfig) : Phase → Option (Pass σ)
  | .preLowering => if config.splitVars.isEmpty then none
      else some (.splitVars config.splitVars Pass.ignore)
  | .postLowering => if config.splitFlat.isEmpty then none
      else some (.splitFlat config.splitFlat Pass.ignore)
  | .optimize => if config.merge then some (.merge config.mergeLimit Pass.ignore) else none

/-- The entries of one phase. -/
def entries (config : PipelineConfig) (phase : Phase) : List (Pass σ × Phase) :=
  ((config.pass? phase).map (·, phase)).toList

/-- The entries are those that the configuration asks for, in the order of the phases. -/
def Lines (config : PipelineConfig) (passes : List (Registered σ)) : Prop :=
  passes.map Registered.kind = Phase.all.flatMap config.entries

theorem lines_ofConfig (config : PipelineConfig) (state : σ) :
    config.Lines (Pipeline.ofConfig config state).passes := by
  simp only [Lines, Pipeline.ofConfig, Phase.all, List.flatMap_cons, List.flatMap_nil, entries,
    pass?, List.map_append]
  split_ifs <;> rfl

theorem phase_of_entries {config : PipelineConfig} {phase : Phase} {l : List (Registered σ)}
    (h : l.map Registered.kind = config.entries phase) : ∀ r ∈ l, r.phase = phase := by
  intro r hr
  have hmem : r.kind ∈ config.entries phase := by
    rw [← h]
    exact List.mem_map_of_mem hr
  obtain ⟨pass, -, hpass⟩ := Option.map_eq_some_iff.mp (Option.mem_toList.mp hmem)
  exact (congrArg Prod.snd hpass).symm

theorem Lines.split {config : PipelineConfig} {passes : List (Registered σ)}
    (h : config.Lines passes) (phase : Phase) :
    ∃ front mid back, passes = front ++ mid ++ back ∧ (∀ r ∈ front, r.phase ≠ phase) ∧
      (∀ r ∈ back, r.phase ≠ phase) ∧ mid.map Registered.kind = config.entries phase ∧
      ∀ mid', mid'.map Registered.kind = config.entries phase →
        config.Lines (front ++ mid' ++ back) := by
  simp only [Lines, Phase.all, List.flatMap_cons, List.flatMap_nil, List.append_nil] at h
  obtain ⟨V, l, rfl, hV, hl⟩ := List.map_eq_append_iff.mp h
  obtain ⟨F, M, rfl, hF, hM⟩ := List.map_eq_append_iff.mp hl
  have hne : ∀ {l : List (Registered σ)} {p : Phase}, l.map Registered.kind = config.entries p →
      p ≠ phase → ∀ r ∈ l, r.phase ≠ phase := by
    intro l p hl hp r hr
    rwa [phase_of_entries hl r hr]
  have hlines : ∀ V F M : List (Registered σ), V.map Registered.kind = config.entries .preLowering →
      F.map Registered.kind = config.entries .postLowering →
      M.map Registered.kind = config.entries .optimize → config.Lines (V ++ (F ++ M)) := by
    intro V F M hV hF hM
    simp [Lines, Phase.all, hV, hF, hM]
  cases phase with
  | preLowering =>
    refine ⟨[], V, F ++ M, by simp, by simp, ?_, hV, fun V' hV' => by
      simpa using hlines V' F M hV' hF hM⟩
    intro r hr
    rcases List.mem_append.mp hr with hr | hr
    · exact hne hF (by simp) r hr
    · exact hne hM (by simp) r hr
  | postLowering =>
    exact ⟨V, F, M, by simp, hne hV (by simp), hne hM (by simp), hF,
      fun F' hF' => by simpa using hlines V F' M hV hF' hM⟩
  | optimize =>
    refine ⟨V ++ F, M, [], by simp, ?_, by simp, hM, fun M' hM' => by
      simpa using hlines V F M' hV hF hM'⟩
    intro r hr
    rcases List.mem_append.mp hr with hr | hr
    · exact hne hV (by simp) r hr
    · exact hne hF (by simp) r hr

end PipelineConfig

namespace Session

open Checked

variable {σ : Type} {check : Bool} {phase : Phase} {config : PipelineConfig} {lax : Prop}
  {s : Session σ} {x : Checked (Verdict × Session σ)} {A B : Bool → Session σ → Prop}

/-- No pass is to blame, and whether anything changed and the session in the end have the
property. -/
def Ends (lax : Prop) (x : Checked (Verdict × Session σ)) (A : Bool → Session σ → Prop) : Prop :=
  Gives lax x fun r => ∃ changed t, r = (.ok changed, t) ∧ A changed t

theorem Ends.bind {β : Type} {k : Verdict × Session σ → Checked β} {R : β → Prop}
    (h : Ends lax x A) (hk : ∀ changed t, A changed t → Gives lax (k (.ok changed, t)) R) :
    Gives lax (x >>= k) R := by
  refine Gives.bind h ?_
  rintro _ ⟨changed, t, rfl, ha⟩
  exact hk changed t ha

theorem Ends.imp (h : Ends lax x A) (hab : ∀ changed t, A changed t → B changed t) :
    Ends lax x B := by
  refine Gives.imp h ?_
  rintro _ ⟨changed, t, rfl, ha⟩
  exact ⟨changed, t, rfl, hab changed t ha⟩

theorem blame_of_check {t : Shader} {name : String} (h : check → t.check = .ok (.ok ())) :
    blame check name t = .ok none := by
  cases check with
  | false => rfl
  | true =>
    simp only [blame, ExceptT.run, h rfl]
    rfl

theorem runPasses_skip {l todo : List (Registered σ)} (h : ∀ r ∈ l, r.phase ≠ phase) :
    runPasses check phase (l ++ todo) s =
      runPasses check phase todo { s with passes := s.passes ++ l } := by
  induction l generalizing s with
  | nil => simp
  | cons r l ih =>
    rw [List.forall_mem_cons] at h
    rw [List.cons_append, runPasses, if_pos h.1, ih h.2]
    simp

theorem runPasses_other {l : List (Registered σ)} (h : ∀ r ∈ l, r.phase ≠ phase) :
    runPasses check phase l s = .ok (.ok false, { s with passes := s.passes ++ l }) := by
  have hskip : runPasses check phase (l ++ []) s = _ := runPasses_skip h
  rwa [List.append_nil] at hskip

/-- What the pass of a phase does to the shader of a session. -/
structure Advances (config : PipelineConfig) (Q : Bool → Shader → Prop) (s : Session σ)
    (changed : Bool) (t : Session σ) : Prop where
  lines : config.Lines t.passes
  shader : Q changed t.shader
  changes : t.stats.passesChanged = s.stats.passesChanged + changed.toNat
  rounds : t.stats.rounds = s.stats.rounds

section Passes

variable {Q : Bool → Shader → Prop} (hs : config.Lines s.passes)
  (hon : ∀ pass ∈ config.pass? phase, ∀ state : σ,
    Gives lax (pass.run state s.shader) fun r => Q r.1 r.2.2)
  (hoff : config.pass? (σ := σ) phase = none → Q false s.shader)
  (hcheck : config.check → ∀ changed t, Q changed t → t.check = .ok (.ok ()))

include hs hon hoff hcheck

theorem runRound_ends : Ends lax (s.runRound config.check phase) (s.Advances config Q) := by
  obtain ⟨front, mid, back, hpasses, hfront, hback, hmid, hlines⟩ := hs.split phase
  rw [runRound, hpasses, List.append_assoc, runPasses_skip hfront]
  cases hpass : config.pass? (σ := σ) phase with
  | none =>
    obtain rfl : mid = [] := by simpa [PipelineConfig.entries, hpass] using hmid
    rw [List.nil_append, runPasses_other hback]
    exact ⟨false, _, rfl, by simpa using hlines [] hmid, hoff hpass, rfl, rfl⟩
  | some pass =>
    obtain ⟨r, rfl, hr⟩ : ∃ r, mid = [r] ∧ r.kind = (pass, phase) := by
      simpa [PipelineConfig.entries, hpass, List.map_eq_singleton_iff] using hmid
    obtain ⟨rfl, rfl⟩ : r.pass = pass ∧ r.phase = phase := by simpa [Registered.kind] using hr
    rw [List.singleton_append, runPasses, if_neg (by simp)]
    refine (hon r.pass hpass r.state).bind fun ⟨changed, state, t⟩ hq => ?_
    simp only [blame_of_check fun h => hcheck h changed t hq, runPasses_other hback, ok_bind]
    exact ⟨changed, ⟨front ++ [r.ran changed state] ++ back, t, s.stats.countPass changed⟩,
      by simp [Except.map], hlines [r.ran changed state] hmid, hq, rfl, rfl⟩

theorem runPhase_once (hphase : phase ≠ .optimize) :
    Ends lax (s.runPhase config phase) (s.Advances config Q) := by
  have hrounds : roundsOf config phase = 1 := by simp [roundsOf, hphase]
  have hcount : ∀ stats : PipelineStats, stats.countRound phase = stats := by
    intro stats
    simp [PipelineStats.countRound, hphase]
  simp only [runPhase, hrounds, runRounds, bind_assoc, hcount]
  refine (runRound_ends hs hon hoff hcheck).bind fun changed t ht => ?_
  cases changed with
  | false => exact ⟨false, _, rfl, ht.lines, ht.shader, ht.changes, ht.rounds⟩
  | true => exact ⟨true, _, rfl, ht.lines, ht.shader, ht.changes, ht.rounds⟩

end Passes

/-- What a round makes of what holds is there after all rounds. -/
theorem runRounds_ends {I J : Session σ → Prop}
    (hround : ∀ s, I s → Ends lax (s.runRound check phase) fun _ t =>
      J { t with stats := t.stats.countRound phase })
    (hagain : ∀ s, J s → I s) {rounds : Nat} (hs : I s) :
    Ends lax (s.runRounds check phase (rounds + 1)) fun _ t => J t := by
  induction rounds generalizing s with
  | zero =>
    simp only [runRounds]
    refine (hround s hs).bind fun changed t hj => ?_
    cases changed with
    | false => exact ⟨false, _, rfl, hj⟩
    | true => exact ⟨true, _, rfl, hj⟩
  | succ rounds ih =>
    rw [runRounds]
    refine (hround s hs).bind fun changed t hj => ?_
    cases changed with
    | false => exact ⟨false, _, rfl, hj⟩
    | true => exact (ih (hagain _ hj)).bind fun changed u hu => ⟨true, u, rfl, hu⟩

theorem runRounds_still {rounds : Nat} {I : Session σ → Prop}
    (hround : Ends lax (s.runRound check phase) fun changed t => changed = false ∧ I t) :
    Ends lax (s.runRounds check phase (rounds + 1)) fun changed t => changed = false ∧
      ∃ u, t = { u with stats := u.stats.countRound phase } ∧ I u := by
  rw [runRounds]
  refine hround.bind ?_
  rintro _ t ⟨rfl, ht⟩
  exact ⟨false, _, rfl, rfl, t, rfl, ht⟩

theorem runPhase_repeated
    (h : ∀ rounds, Ends lax (s.runRounds config.check .optimize (rounds + 1)) A) :
    Ends lax (s.runPhase config .optimize) fun changed t =>
      ∃ u, t = { u with stats := u.stats.countPhase } ∧ A changed u := by
  have hrounds : roundsOf config .optimize = max config.maxRounds 1 - 1 + 1 := by simp [roundsOf]
  rw [runPhase, hrounds]
  exact (h _).bind fun changed t ha => ⟨changed, _, rfl, t, rfl, ha⟩

theorem runPhases_ends {phases : List Phase} (h : Ends lax (s.runPhase config phase) A)
    (hrest : ∀ changed t, A changed t →
      Ends lax (t.runPhases config phases) fun changed' => B (changed || changed')) :
    Ends lax (s.runPhases config (phase :: phases)) B := by
  rw [runPhases]
  refine h.bind fun changed t ha => ?_
  exact (hrest changed t ha).bind fun changed' u hb => ⟨changed || changed', u, rfl, hb⟩

end Session

end ShaderSSA
