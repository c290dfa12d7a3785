import ShaderSSA.Proofs.Operations
import ShaderSSA.Proofs.Reporting
import ShaderSSA.Proofs.VarMeaning

/-! What the sweep of derefs takes out. The rounds of the sweep come to the least set that holds
every deref read only from within it, and nothing else is touched. -/

namespace ShaderSSA

namespace Function

variable {f g k : Function} {i j : InstrId} {S S' : InstrId → Prop}

/-- `g` is `f` without the instructions of `S`: they are marked, stand in no block and are listed as
readers of nothing, while all else is as it was. -/
structure Pared (f : Function) (S : InstrId → Prop) (g : Function) : Prop extends f.Shed S g where
  unlisted : ∀ v us u, g.uses? v = some us → u ∈ us → ¬ S u.instr
  unplaced : ∀ b, ∀ i ∈ g.blockInstrs b, ¬ S i

/-- The least set of linked derefs to which one belongs as soon as no branch tests its value and all
that read it belong to the set. -/
inductive Doomed (f : Function) : InstrId → Prop
  | deref {i : InstrId} {b : BlockId} {d : Deref} : f.home? i = some b →
      f.body? i = some (.deref d) → (∀ v c, f.dest? i = some v → f.condition? c ≠ some v) →
      (∀ v u, f.dest? i = some v → f.reads? u = some v → f.Doomed u.instr) → f.Doomed i

theorem Pared.refl (f : Function) : f.Pared (fun _ => False) f :=
  ⟨.refl f, fun _ _ _ _ _ h => h, fun _ _ _ h => h⟩

theorem Pared.trans (h : f.Pared S g) (h' : g.Pared S' k) : f.Pared (fun i => S i ∨ S' i) k where
  toShed := h.toShed.trans h'.toShed
  unlisted v us u hus hu := by
    obtain ⟨us₁, hus₁, hsub⟩ := h'.uses_before hus
    exact not_or.mpr ⟨h.unlisted v us₁ u hus₁ (hsub hu), h'.unlisted v us u hus hu⟩
  unplaced b i hi :=
    not_or.mpr ⟨h.unplaced b i (h'.blockInstrs_subset b hi), h'.unplaced b i hi⟩

theorem Dead.pared (h : f.Dead i) (hf : f.Tidy) (hg : f.remove i = .ok g) :
    f.Pared (· = i) g := by
  obtain ⟨g', hg', htidy, hr, -⟩ := h.remove_ok hf
  obtain rfl : g' = g := Except.ok.inj (hg'.symm.trans hg)
  refine ⟨shed_of_remove hg, fun v us u hus hu hui => ?_, fun b j hj hji => ?_⟩
  · have hread := (htidy.recorded.mem_iff hus).mp hu
    simp [hr.reads, hui] at hread
  · rw [htidy.linked.placed.mem_iff, (dropped_of_remove hg).home, if_pos hji] at hj
    cases hj

theorem Dead.doomed (h : f.Dead i) : f.Doomed i := by
  obtain ⟨b, hb⟩ := h.home
  obtain ⟨d, hd⟩ := h.body
  exact .deref hb hd (fun v c hv => (h.unread v hv).2 c) fun v u hv hu =>
    absurd hu ((h.unread v hv).1 u)

theorem not_doomed (h : ∀ i, ¬ f.Dead i) (i : InstrId) : ¬ f.Doomed i := by
  intro hi
  induction hi with
  | @deref i b d hb hd hcond _ ih =>
    exact h i ⟨⟨b, hb⟩, ⟨d, hd⟩, fun v hv => ⟨fun u hu => ih v u hv hu, fun c => hcond v c hv⟩⟩

/-- Taking out a dead deref leaves the others to be doomed as they were. -/
theorem Dead.doomed_iff (h : f.Dead i) (hf : f.Tidy) (hg : f.remove i = .ok g) :
    f.Doomed j ↔ j = i ∨ g.Doomed j := by
  obtain ⟨g', hg', -, hr, -⟩ := h.remove_ok hf
  obtain rfl : g' = g := Except.ok.inj (hg'.symm.trans hg)
  have hbody := (shed_of_remove hg).body
  have hreads : ∀ u v, g'.reads? u = some v ↔ u.instr ≠ i ∧ f.reads? u = some v := by
    intro u v
    rw [hr.reads]
    by_cases hu : u.instr = i <;> simp [hu]
  have hcondition : ∀ c v, g'.condition? c = some v ↔ f.condition? c = some v := by
    intro c v
    simp [hr.condition]
  have hhome : ∀ k c, g'.home? k = some c ↔ k ≠ i ∧ f.home? k = some c := by
    intro k c
    rw [hr.home]
    by_cases hk : k = i <;> simp [hk]
  constructor
  · intro hj
    induction hj with
    | @deref j b d hb hd hcond _ ih =>
      by_cases hji : j = i
      · exact .inl hji
      · refine .inr (.deref ((hhome j b).mpr ⟨hji, hb⟩) (by rw [hbody, hd]) (fun v c hv => ?_)
          fun v u hv hu => ?_)
        · rw [Ne, hcondition]
          exact hcond v c (by rwa [hr.dest] at hv)
        · obtain ⟨hui, hu⟩ := (hreads u v).mp hu
          exact (ih v u (by rwa [hr.dest] at hv) hu).resolve_left hui
  · rintro (rfl | hj)
    · exact h.doomed
    · induction hj with
      | @deref j b d hb hd hcond _ ih =>
        refine .deref ((hhome j b).mp hb).2 (by rw [← hbody, hd]) (fun v c hv => ?_)
          fun v u hv hu => ?_
        · rw [Ne, ← hcondition]
          exact hcond v c (by rwa [hr.dest])
        · by_cases hui : u.instr = i
          · exact hui ▸ h.doomed
          · exact ih v u (by rwa [hr.dest]) ((hreads u v).mpr ⟨hui, hu⟩)

/-- A part of what is doomed has been taken out. -/
def Paring (f g : Function) : Prop := ∃ S, f.Pared S g ∧ ∀ i, f.Doomed i ↔ S i ∨ g.Doomed i

theorem Dead.paring (h : g.Dead i) (hg : g.Tidy) (hk : g.remove i = .ok k) (hf : f.Paring g) :
    f.Paring k := by
  obtain ⟨S, hpared, hdoomed⟩ := hf
  refine ⟨_, hpared.trans (h.pared hg hk), fun j => ?_⟩
  rw [hdoomed, h.doomed_iff hg hk, or_assoc]

/-- The sweep takes out what is doomed and nothing else. -/
theorem Tidy.sweepDerefs (hf : f.Tidy) :
    ∃ g, f.sweepDerefs = .ok g ∧ f.Pared f.Doomed g ∧ g.deadDerefs = [] := by
  have hstart : f.Paring f := ⟨_, .refl f, by simp⟩
  obtain ⟨g, hg, ⟨htidy, S, hpared, hdoomed⟩, hnone⟩ :=
    sweepDerefs_ok (I := fun g => g.Tidy ∧ f.Paring g) (fun h => h.1)
      (fun h hi hk => ⟨h.1.apply (e := .remove _) trivial hk, hi.paring h.1 hk h.2⟩)
      (⟨hf, hstart⟩ : f.Tidy ∧ f.Paring f)
  have hS : S = f.Doomed := by
    funext i
    simp [hdoomed, not_doomed hnone]
  refine ⟨g, hg, hS ▸ hpared, List.eq_nil_iff_forall_not_mem.mpr fun i hi => ?_⟩
  exact hnone i ((mem_deadDerefs htidy).mp hi)

theorem Tidy.deadDerefs_eq_nil_iff (hf : f.Tidy) : f.deadDerefs = [] ↔ ∀ i, ¬ f.Doomed i := by
  constructor
  · intro hnil
    exact not_doomed fun i hi => by simpa [hnil] using (mem_deadDerefs hf).mpr hi
  · intro hnone
    refine List.eq_nil_iff_forall_not_mem.mpr fun i hi => ?_
    exact hnone i ((mem_deadDerefs hf).mp hi).doomed

theorem Consistent.small (hc : f.Consistent) (hf : f.Sourced) : f.Small := by
  intro i vs hvs
  cases hi : f.home? i with
  | none => exact hf.removed i vs hi hvs
  | some b =>
    by_contra hlen
    obtain ⟨v, hv⟩ : ∃ v, vs[256]? = some v := ⟨_, List.getElem?_eq_getElem (by omega)⟩
    have hread : f.reads? ⟨i, 256⟩ = some v := by simp [reads?, hi, hvs, hv]
    obtain ⟨x, hx⟩ := hasValue_iff.mp (hf.known i vs hvs v (List.mem_of_getElem? hv))
    have hcount := hc.uses v x hx i 256
    rw [if_pos hread] at hcount
    have hmem : (⟨i, 256⟩ : Use) ∈ x.uses := List.count_pos_iff.mp (by omega)
    have hslot : 256 < 256 := hf.slot v x.uses (by simp [uses?, hx]) _ hmem
    omega

theorem Attained.tidy (hf : f.Attained) (hc : f.Consistent) : f.Tidy :=
  ⟨hf.reached, hc.small hf.reached.linked.sourced⟩

end Function

namespace Shader

variable {s : Shader}

/-- The sweep ends and takes out of each function exactly the derefs that are read by one another
only; it says whether there were any, and a second sweep finds none. -/
theorem sweepDerefs_exact (hs : ∀ f ∈ s.functions, f.Attained ∧ f.Consistent) :
    ∃ swept s', s.sweepDerefs = .ok (swept, s') ∧ s'.stage = s.stage ∧ s'.vars = s.vars ∧
      List.Forall₂ (fun f g => f.Pared f.Doomed g) s.functions s'.functions ∧
      (swept = true ↔ ∃ f ∈ s.functions, ∃ i, f.Doomed i) ∧
      s'.sweepDerefs = .ok (false, s') := by
  have htidy : ∀ f ∈ s.functions, f.Tidy := fun f hf => (hs f hf).1.tidy (hs f hf).2
  have hsame : List.Forall₂ (fun f g => f = g ∧ g ∈ s.functions) s.functions s.functions :=
    List.forall₂_same.mpr fun f hf => ⟨rfl, hf⟩
  obtain ⟨gs, hgs, hall⟩ := mapM_ok (m := (·.sweepDerefs))
    (S := fun f g => f.Pared f.Doomed g ∧ g.deadDerefs = []) hsame
    fun f g hg => (htidy g hg.2).sweepDerefs
  have hnone : ∀ g ∈ gs, g.deadDerefs = [] := by
    intro g hg
    obtain ⟨f, -, -, hnil⟩ := exists_of_forall₂ hall hg
    exact hnil
  refine ⟨s.hasDeadDeref, { s with functions := gs }, ?_, rfl, rfl, hall.imp fun _ _ h => h.1,
    ?_, ?_⟩
  · simp only [sweepDerefs, hgs, ok_bind]
    rfl
  · rw [← Bool.not_eq_false, hasDeadDeref_eq_false]
    push Not
    refine exists_congr fun f => and_congr_right fun hf => ?_
    rw [Ne, (htidy f hf).deadDerefs_eq_nil_iff]
    push Not
    rfl
  · have hfalse : hasDeadDeref { s with functions := gs } = false := hasDeadDeref_eq_false.mpr hnone
    simp only [sweepDerefs, mapM_sweepDerefs hnone, ok_bind, hfalse]
    rfl

end Shader

/-- Derefs of a grid that share their steps: a column that is read, one that only indexes a column
of another chain that nobody reads, and one that a branch tests. -/
def gridEdits : List Edit :=
  [.insert (.stop ⟨0⟩) (.const [1]) (some ⟨1, 32⟩),
    .insert (.stop ⟨0⟩) (.deref ⟨.var ⟨0⟩, .shaderIn, .array (.array (.floats 2) 3) 2⟩)
      (some ⟨1, 32⟩),
    .insert (.stop ⟨0⟩) (.deref ⟨.element ⟨1⟩ ⟨0⟩, .shaderIn, .array (.floats 2) 3⟩) (some ⟨1, 32⟩),
    .insert (.stop ⟨0⟩) (.deref ⟨.element ⟨2⟩ ⟨0⟩, .shaderIn, .floats 2⟩) (some ⟨1, 32⟩),
    .insert (.stop ⟨0⟩) (.deref ⟨.element ⟨1⟩ ⟨0⟩, .shaderIn, .array (.floats 2) 3⟩) (some ⟨1, 32⟩),
    .insert (.stop ⟨0⟩) (.deref ⟨.element ⟨4⟩ ⟨0⟩, .shaderIn, .floats 2⟩) (some ⟨1, 32⟩),
    .insert (.stop ⟨0⟩) (.access ⟨.loadDeref, 2, [⟨5⟩], 0, 0, 0⟩) (some ⟨2, 32⟩), .addBlock,
    .insert (.stop ⟨1⟩) (.deref ⟨.var ⟨0⟩, .shaderIn, .array (.array (.floats 2) 3) 2⟩)
      (some ⟨1, 32⟩),
    .insert (.stop ⟨1⟩) (.deref ⟨.element ⟨7⟩ ⟨3⟩, .shaderIn, .array (.floats 2) 3⟩) (some ⟨1, 32⟩),
    .insert (.stop ⟨0⟩) (.deref ⟨.var ⟨0⟩, .shaderIn, .array (.array (.floats 2) 3) 2⟩)
      (some ⟨1, 32⟩),
    .setTerminator ⟨0⟩ (.branch ⟨9⟩ ⟨1⟩ ⟨1⟩)]

def gridShader : Shader :=
  ⟨.fragment, (Variables.empty.add ⟨"grid", .shaderIn, .array (.array (.floats 2) 3) 2, 32, 0,
    .ofBits 0, 0⟩).2, [Operation.outcome (gridEdits.map .edit)]⟩

theorem sweepDerefs_exact_gridShader :
    (∀ f ∈ gridShader.functions, f.Attained ∧ f.Consistent) ∧
      ∃ s', gridShader.sweepDerefs = .ok (true, s') ∧
        s'.functions.map (fun f => (f.blockInstrs ⟨0⟩, f.blockInstrs ⟨1⟩)) =
          [([⟨0⟩, ⟨1⟩, ⟨4⟩, ⟨5⟩, ⟨6⟩, ⟨9⟩], [])] ∧
        List.Forall₂ (fun f g => f.Pared f.Doomed g) gridShader.functions s'.functions ∧
        s'.sweepDerefs = .ok (false, s') := by
  have hattained := Function.Attained.outcome (gridEdits.map .edit)
  have hlinked := hattained.reached.linked
  have hcheck : (Operation.outcome (gridEdits.map .edit)).check = .ok (.ok ()) := rfl
  have hsmall := (Function.verified_of_check hlinked hcheck).small hlinked
  have hs : ∀ f ∈ gridShader.functions, f.Attained ∧ f.Consistent := by
    simpa [gridShader] using ⟨hattained, hlinked.consistent hsmall⟩
  obtain ⟨swept, s', hrun, -, -, hall, -, hagain⟩ := Shader.sweepDerefs_exact hs
  have hcalc : (gridShader.sweepDerefs).toOption.map (fun r => (r.1, r.2.functions.map
      fun f => (f.blockInstrs ⟨0⟩, f.blockInstrs ⟨1⟩))) =
      some (true, [([⟨0⟩, ⟨1⟩, ⟨4⟩, ⟨5⟩, ⟨6⟩, ⟨9⟩], [])]) := by decide +kernel
  rw [hrun] at hcalc
  obtain ⟨rfl, hblocks⟩ := Prod.mk.inj (Option.some.inj hcalc)
  exact ⟨hs, s', hrun, hblocks, hall, hagain⟩

end ShaderSSA
