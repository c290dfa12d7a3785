import ShaderSSA.Pipeline
import ShaderSSA.Proofs.History
import ShaderSSA.Proofs.SplitMoves

/-! What the split of variables reports. It counts the accesses that it takes apart; the sweep that
follows goes uncounted, so a run that reports no change has swept and done nothing else. -/

namespace ShaderSSA

/-- The accesses taken apart so far. -/
def Splitting.count (t : Splitting) : Nat := t.stats.loads + t.stats.stores

theorem Splitting.stats_of_moves {source : VarId} {May : ValueId → Prop} {Emits : Prop}
    {p q : Splitting × Function} (h : Relation.ReflTransGen (Moves source May Emits) p q) :
    q.1.stats = p.1.stats := by
  induction h with
  | refl => rfl
  | tail _ hstep ih =>
    cases hstep with
    | insert _ => exact ih
    | create _ hc =>
      cases hc
      exact ih

/-- Nothing happened, or an access was taken apart and counted. -/
def Splitting.Counted {α : Type} (a : α) (t : Splitting) (b : α) (t' : Splitting) : Prop :=
  (b = a ∧ t' = t) ∨ t.count < t'.count

theorem Splitting.Counted.trans {α : Type} {a b c : α} {t t' t'' : Splitting}
    (h : Counted a t b t') (h' : Counted b t' c t'') : Counted a t c t'' := by
  rcases h with ⟨rfl, rfl⟩ | h
  · exact h'
  · rcases h' with ⟨rfl, rfl⟩ | h'
    · exact .inr h
    · exact .inr (h.trans h')

namespace Function

variable {f g : Function} {i : InstrId} {t t' : Splitting}

theorem TakesApart.count {a : Access} {target : ValueId} {root : VarId}
    (h : TakesApart t f i a target root t' g) : t'.count = t.count + 1 := by
  cases h with
  | load _ _ hmoves =>
    have hstats := Splitting.stats_of_moves hmoves
    simp only [Splitting.count, SplitStats.countLoad] at hstats ⊢
    rw [hstats]
    omega
  | store _ hmoves =>
    have hstats := Splitting.stats_of_moves hmoves
    simp only [Splitting.count, SplitStats.countStore] at hstats ⊢
    rw [hstats]
    omega

theorem splitVarInstr_counted {stage : Stage} {modes : Mode}
    (h : (splitVarInstr stage modes f i).run t = .ok (g, t')) : Splitting.Counted f t g t' := by
  rcases splitVarInstr_cases h with ⟨rfl, rfl, -⟩ | ⟨a, target, root, -, hsplit⟩
  · exact .inl ⟨rfl, rfl⟩
  · exact .inr (by rw [hsplit.count]; omega)

theorem foldlM_counted {α : Type} {step : Function → α → SplitEdit Function}
    (hstep : ∀ f x t g t', (step f x).run t = .ok (g, t') → Splitting.Counted f t g t')
    {l : List α} (h : (l.foldlM step f).run t = .ok (g, t')) : Splitting.Counted f t g t' := by
  induction l generalizing f t with
  | nil =>
    cases h
    exact .inl ⟨rfl, rfl⟩
  | cons x l ih =>
    rw [List.foldlM_cons, StateT.run_bind, bind_eq_ok] at h
    obtain ⟨⟨k, t₁⟩, hx, hl⟩ := h
    exact (hstep f x t k t₁ hx).trans (ih hl)

theorem splitVars_counted {stage : Stage} {modes : Mode}
    (h : (f.splitVars stage modes).run t = .ok (g, t')) : Splitting.Counted f t g t' :=
  foldlM_counted (fun _ _ _ _ _ => foldlM_counted fun _ _ _ _ _ => splitVarInstr_counted) h

theorem mapM_splitVars_counted {stage : Stage} {modes : Mode} {fs gs : List Function}
    (h : (fs.mapM (splitVars stage modes)).run t = .ok (gs, t')) :
    Splitting.Counted fs t gs t' := by
  induction fs generalizing t gs with
  | nil =>
    cases h
    exact .inl ⟨rfl, rfl⟩
  | cons f fs ih =>
    simp only [List.mapM_cons, StateT.run_bind, bind_eq_ok] at h
    obtain ⟨⟨g, t₁⟩, hg, ⟨ks, t₂⟩, hks, h⟩ := h
    cases h
    rcases splitVars_counted hg with ⟨rfl, rfl⟩ | hlt
    · rcases ih hks with ⟨rfl, rfl⟩ | hlt
      · exact .inl ⟨rfl, rfl⟩
      · exact .inr hlt
    · rcases ih hks with ⟨rfl, rfl⟩ | hlt'
      · exact .inr hlt
      · exact .inr (hlt.trans hlt')

/-- An instruction that was taken out of its block. -/
def Gone (f : Function) (i : InstrId) : Prop := ∃ x, f.instrs.get? i = some x ∧ x.removed = true

theorem gone_of_remove (h : f.remove i = .ok g) :
    ¬ f.Gone i ∧ g.Gone i ∧ ∀ j, f.Gone j → g.Gone j := by
  obtain ⟨x, U, hx, hlive, -, -, rfl⟩ := remove_ok h
  have hget : ∀ j y, f.instrs.get? j = some y →
      (((f.mapValues fun w y => { y with uses := U w }).mapBlocks fun b y =>
        if b = x.block then { y with instrs := y.instrs.erase i } else y).mapInstrs
        fun j y => if j = i then { y with removed := true } else y).instrs.get? j =
        some (if j = i then { y with removed := true } else y) := by
    intro j y hy
    simp [mapInstrs, mapBlocks, mapValues, Arena.get?_mapIds, hy]
  refine ⟨?_, ⟨_, hget i x hx, by simp⟩, ?_⟩
  · rintro ⟨y, hy, hgone⟩
    obtain rfl : x = y := by simpa [hx] using hy
    simp [hlive] at hgone
  · rintro j ⟨y, hy, hgone⟩
    refine ⟨_, hget j y hy, ?_⟩
    split
    · rfl
    · exact hgone

theorem gone_of_foldlM_remove {l : List InstrId} (h : l.foldlM remove f = .ok g) :
    (∀ j, f.Gone j → g.Gone j) ∧ ∀ j ∈ l, ¬ f.Gone j ∧ g.Gone j := by
  induction l generalizing f with
  | nil =>
    cases h
    exact ⟨fun _ hj => hj, by simp⟩
  | cons i l ih =>
    rw [List.foldlM_cons, bind_eq_ok] at h
    obtain ⟨k, hk, hl⟩ := h
    obtain ⟨hnot, hgone, hmono⟩ := gone_of_remove hk
    obtain ⟨hmono', hl'⟩ := ih hl
    refine ⟨fun j hj => hmono' j (hmono j hj), fun j hj => ?_⟩
    rcases List.mem_cons.mp hj with rfl | hj
    · exact ⟨hnot, hmono' j hgone⟩
    · exact ⟨fun hf => (hl' j hj).1 (hmono j hf), (hl' j hj).2⟩

theorem gone_of_sweepWithin {rounds : Nat} (h : sweepWithin rounds f = .ok g) :
    (∀ j, f.Gone j → g.Gone j) ∧ ∀ j ∈ f.deadDerefs, ¬ f.Gone j ∧ g.Gone j := by
  induction rounds generalizing f with
  | zero => cases h
  | succ rounds ih =>
    rw [sweepWithin] at h
    split at h
    · rename_i hnone
      cases h
      rw [List.isEmpty_iff] at hnone
      exact ⟨fun _ hj => hj, by simp [hnone]⟩
    · obtain ⟨k, hk, hrest⟩ := bind_eq_ok.mp h
      obtain ⟨hmono, hl⟩ := gone_of_foldlM_remove hk
      have hmono' := (ih hrest).1
      refine ⟨fun j hj => hmono' j (hmono j hj), fun j hj => ?_⟩
      obtain ⟨hnot, hgone⟩ := hl j (List.mem_reverse.mpr hj)
      exact ⟨hnot, hmono' j hgone⟩

theorem sweepDerefs_eq_ok (h : f.deadDerefs = []) : f.sweepDerefs = .ok f := by
  rw [sweepDerefs, sweepWithin, h]
  rfl

/-- A sweep leaves a function as it was only if there is nothing to sweep. -/
theorem sweepDerefs_eq_iff (h : f.sweepDerefs = .ok g) : g = f ↔ f.deadDerefs = [] := by
  constructor
  · rintro rfl
    refine List.eq_nil_iff_forall_not_mem.mpr fun i hi => ?_
    obtain ⟨hnot, hgone⟩ := (gone_of_sweepWithin h).2 i hi
    exact hnot hgone
  · intro hnone
    exact Except.ok.inj (h.symm.trans (sweepDerefs_eq_ok hnone))

end Function

namespace Shader

variable {s s' : Shader} {modes : Mode} {stats : SplitStats}

theorem mapM_sweepDerefs {fs : List Function} (h : ∀ f ∈ fs, f.deadDerefs = []) :
    fs.mapM (·.sweepDerefs) = .ok fs := by
  induction fs with
  | nil => rfl
  | cons f fs ih =>
    rw [List.mapM_cons, Function.sweepDerefs_eq_ok (h f (by simp)), ok_bind,
      ih fun g hg => h g (by simp [hg])]
    rfl

theorem mapM_sweepDerefs_eq_iff {fs gs : List Function}
    (h : fs.mapM (·.sweepDerefs) = .ok gs) : gs = fs ↔ ∀ f ∈ fs, f.deadDerefs = [] := by
  induction fs generalizing gs with
  | nil =>
    cases h
    simp
  | cons f fs ih =>
    simp only [List.mapM_cons, bind_eq_ok] at h
    obtain ⟨g, hg, ks, hks, h⟩ := h
    cases h
    rw [List.cons.injEq, Function.sweepDerefs_eq_iff hg, ih hks, List.forall_mem_cons]

theorem hasDeadDeref_eq_false : s.hasDeadDeref = false ↔ ∀ f ∈ s.functions, f.deadDerefs = [] := by
  simp [hasDeadDeref]

theorem sweepDerefs_unchanged_iff {swept : Bool} (h : s.sweepDerefs = .ok (swept, s')) :
    s' = s ↔ s.hasDeadDeref = false := by
  obtain ⟨gs, hgs, h⟩ := bind_eq_ok.mp h
  cases h
  rw [hasDeadDeref_eq_false, ← mapM_sweepDerefs_eq_iff hgs]
  constructor
  · intro h
    exact congrArg Shader.functions h
  · rintro rfl
    rfl

theorem sweepDerefs_of_uncounted (h : s.splitVars modes = .ok (stats, s'))
    (hnone : stats.loads + stats.stores = 0) :
    s.sweepDerefs = .ok (s.hasDeadDeref, s') ∧ stats = .zero := by
  obtain ⟨⟨gs, t⟩, hgs, h⟩ := bind_eq_ok.mp h
  obtain ⟨⟨swept, k⟩, hk, h⟩ := bind_eq_ok.mp h
  cases h
  rcases Function.mapM_splitVars_counted hgs with ⟨rfl, rfl⟩ | hlt
  · refine ⟨?_, rfl⟩
    obtain ⟨ks, hks, hk⟩ := bind_eq_ok.mp hk
    cases hk
    simp only [sweepDerefs, hks, ok_bind]
    rfl
  · simp only [Splitting.count, SplitStats.zero] at hlt
    dsimp only at hnone
    omega

end Shader

theorem SplitStats.changed_eq_false {stats : SplitStats} (h : stats.changed = .ok false) :
    stats.loads + stats.stores = 0 := by
  obtain ⟨n, hn, h⟩ := bind_eq_ok.mp h
  obtain ⟨-, rfl⟩ := Checked.fit_eq_ok.mp hn
  simpa using h

/-- A run of the pass that reports no change has swept the derefs that nobody reads and done nothing
else, and it has changed the shader exactly if there were such derefs. -/
theorem Pass.sweeps_of_unreported {modes : Mode} {total total' : SplitStats} {s s' : Shader}
    (h : (Pass.countedSplitVars modes).run total s = .ok (false, total', s')) :
    s.sweepDerefs = .ok (s.hasDeadDeref, s') ∧ (s' = s ↔ s.hasDeadDeref = false) ∧
      total' = total := by
  obtain ⟨⟨stats, k⟩, hk, h⟩ := bind_eq_ok.mp h
  obtain ⟨sum, hsum, h⟩ := bind_eq_ok.mp h
  obtain ⟨changed, hchanged, h⟩ := bind_eq_ok.mp h
  cases h
  obtain ⟨hsweep, rfl⟩ := Shader.sweepDerefs_of_uncounted hk (SplitStats.changed_eq_false hchanged)
  refine ⟨hsweep, Shader.sweepDerefs_unchanged_iff hsweep, ?_⟩
  simp only [SplitStats.merge, SplitStats.zero, Nat.add_zero, bind_eq_ok, Checked.fit_eq_ok,
    pure_eq_ok] at hsum
  obtain ⟨_, ⟨-, rfl⟩, _, ⟨-, rfl⟩, _, ⟨-, rfl⟩, _, ⟨-, rfl⟩, _, ⟨-, rfl⟩, rfl⟩ := hsum
  rfl

/-- One output of four channels. -/
def colorVars : Variables :=
  (Variables.empty.add ⟨"color", .shaderOut, .vector .float 32 4, 32, 0, .ofBits 0, 0⟩).2

/-- A deref that nobody reads. -/
def idleEdits : List Edit :=
  [.insert (.stop ⟨0⟩) (.deref ⟨.var ⟨0⟩, .shaderOut, .vector .float 32 4⟩) (some ⟨1, 32⟩)]

def idleShader : Shader := ⟨.fragment, colorVars, [Edit.outcome idleEdits]⟩

theorem sweeps_of_unreported_idleShader : ∃ s',
    (Pass.countedSplitVars .inOut).run .zero idleShader = .ok (false, .zero, s') ∧
      idleShader.sweepDerefs = .ok (true, s') ∧ s' ≠ idleShader := by
  have hrun : ∃ s', (Pass.countedSplitVars .inOut).run .zero idleShader = .ok (false, .zero, s') :=
    ⟨_, rfl⟩
  obtain ⟨s', hs'⟩ := hrun
  obtain ⟨hsweep, hiff, -⟩ := Pass.sweeps_of_unreported hs'
  have hdead : idleShader.hasDeadDeref = true := by decide +kernel
  rw [hdead] at hsweep hiff
  exact ⟨s', hs', hsweep, fun h => by simpa using hiff.mp h⟩

/-- The derefs are swept and no change is reported. -/
theorem idleShader_changes_unreported : (Edit.outcome idleEdits).Reached ∧
    ∃ s', (Pass.countedSplitVars .inOut).run .zero idleShader = .ok (false, .zero, s') ∧
      (idleShader.functions.map (·.blockInstrs ⟨0⟩)) = [[⟨0⟩]] ∧
      (s'.functions.map (·.blockInstrs ⟨0⟩)) = [[]] :=
  ⟨Function.Reached.outcome idleEdits, _, rfl, rfl, rfl⟩

end ShaderSSA
