import ShaderSSA.Proofs.Shedding
import ShaderSSA.Proofs.VarSplit

/-! The sweep of derefs that nobody reads. It ends, nothing else goes, and no run is lost. -/

namespace ShaderSSA

namespace Function

variable {T : Terms} {vars : Variables} {f g k : Function} {i j : InstrId} {b : BlockId}

/-- A deref that nobody reads. -/
structure Dead (f : Function) (i : InstrId) : Prop where
  home : ∃ b, f.home? i = some b
  body : ∃ d, f.body? i = some (.deref d)
  unread : f.Unread i

theorem isUnread_iff {v : ValueId} (hf : f.Tidy) (hv : f.hasValue v) :
    f.isUnread v ↔ (∀ u, f.reads? u ≠ some v) ∧ ∀ c, f.condition? c ≠ some v := by
  obtain ⟨x, hx⟩ := hasValue_iff.mp hv
  have huses : f.uses? v = some x.uses := by simp [uses?, hx]
  have hbranches : f.branches? v = some x.branchUses := by simp [branches?, hx]
  have hunread : f.isUnread v ↔ x.uses = [] ∧ x.branchUses = [] := by
    simp [isUnread, hx, Value.isRead]
  rw [hunread]
  constructor
  · rintro ⟨hu, hc⟩
    refine ⟨fun u hread => ?_, fun c hcond => ?_⟩
    · simpa [hu] using (hf.recorded.mem_iff huses).mpr hread
    · simpa [hc] using (hf.linked.branches.mem_iff hbranches).mpr hcond
  · rintro ⟨hread, hcond⟩
    obtain ⟨hu, hc⟩ := hf.unread hv hread hcond
    exact ⟨by simpa [huses] using hu, by simpa [hbranches] using hc⟩

theorem mem_deadDerefs (hf : f.Tidy) : i ∈ f.deadDerefs ↔ f.Dead i := by
  have hdest : ∀ v, f.dest? i = some v → f.hasValue v := by
    intro v hv
    obtain ⟨x, hx, -⟩ := Option.map_eq_some_iff.mp ((hf.linked.defined.iff i v).mp hv)
    exact hasValue_iff.mpr ⟨x, hx⟩
  have hunread : ∀ x, f.instrs.get? i = some x → (x.dest.all f.isUnread ↔ f.Unread i) := by
    intro x hx
    have hd : f.dest? i = x.dest := by simp [dest?, hx]
    rw [hd] at hdest
    rw [Unread, hd, Option.all_eq_true]
    exact forall₂_congr fun v hv => isUnread_iff hf (hdest v hv)
  rw [deadDerefs, List.mem_filter, hf.linked.placed.mem_liveInstrs, isDeadDeref]
  constructor
  · rintro ⟨hhome, hdead⟩
    obtain ⟨x, hx, hdead⟩ := (Option.any_eq_true _ _).mp hdead
    rw [Bool.and_eq_true, hunread x hx] at hdead
    obtain ⟨d, hd⟩ := Option.isSome_iff_exists.mp hdead.1
    exact ⟨hhome, ⟨d, by simp [body?, hx, Body.deref?_eq_some.mp hd]⟩, hdead.2⟩
  · rintro ⟨hhome, ⟨d, hd⟩, hu⟩
    obtain ⟨x, hx, hxb⟩ := Option.map_eq_some_iff.mp hd
    refine ⟨hhome, (Option.any_eq_true _ _).mpr ⟨x, hx, ?_⟩⟩
    rw [Bool.and_eq_true, hunread x hx, hxb]
    exact ⟨rfl, hu⟩

/-- Instructions went, and no run with them. -/
structure Swept [FloatOps] (f g : Function) : Prop where
  shed : ∃ S, f.Shed S g
  refines : ∀ vars, Refines f vars g vars

theorem Swept.refl [FloatOps] (f : Function) : f.Swept f :=
  ⟨⟨_, .refl f⟩, fun vars => .refl f vars⟩

theorem Swept.trans [FloatOps] (h : f.Swept g) (h' : g.Swept k) : f.Swept k := by
  obtain ⟨S, hs⟩ := h.shed
  obtain ⟨S', hs'⟩ := h'.shed
  exact ⟨⟨_, hs.trans hs'⟩, fun vars => (h.refines vars).trans (h'.refines vars)⟩

theorem Dead.sound [FloatOps] (h : f.Dead i) (hf : f.Sound T vars) (hg : f.remove i = .ok g) :
    g.Sound T vars ∧ f.Swept g := by
  obtain ⟨b, hb⟩ := h.home
  obtain ⟨d, hd⟩ := h.body
  obtain ⟨g', hg', htidy, hr⟩ := h.unread.remove_ok hf.tidy hb
  obtain rfl : g' = g := Except.ok.inj (hg'.symm.trans hg)
  have hclosed : g'.Closed := by
    refine hr.closed (fun u v _ hu => ⟨hf.closed.source u v hu, fun hs => ?_⟩)
      fun c v hc => ⟨hf.closed.condition c v hc, fun hs => ?_⟩
    · exact h.unread.ne hf.tidy.linked.defined (.inl ⟨u, hu⟩) hs rfl
    · exact h.unread.ne hf.tidy.linked.defined (.inr ⟨c, hc⟩) hs rfl
  have he : Emits (T.emitted vars f (fun _ => True) fun _ => True) f i [] f := .refl hf.tidy i
  exact ⟨he.sound hf (.refl vars) (fun _ _ hp => hp.1) hr htidy hclosed
    (fun v hv => .refl hv) fun hT => h.unread.dominance hf.tidy.linked (hf.ordered hT) hr,
    ⟨_, shed_of_remove hg⟩, fun vars => h.unread.refines hf.tidy hb hd rfl hr⟩

/-- A deref that nobody reads can be taken out, and the others of its kind are read no more than
before. -/
theorem Dead.remove_ok (h : f.Dead i) (hf : f.Tidy) :
    ∃ g, f.remove i = .ok g ∧ g.Tidy ∧ Replaced f i (fun w => w) g ∧
      ∀ j, j ≠ i → f.Dead j → g.Dead j := by
  obtain ⟨b, hb⟩ := h.home
  obtain ⟨g, hg, htidy, hr⟩ := h.unread.remove_ok hf hb
  have hbody := (shed_of_remove hg).body
  refine ⟨g, hg, htidy, hr, fun j hji hj => ⟨?_, by rw [hbody]; exact hj.body, fun v hv => ?_⟩⟩
  · obtain ⟨c, hc⟩ := hj.home
    exact ⟨c, by rw [hr.home, if_neg hji, hc]⟩
  · rw [hr.dest] at hv
    obtain ⟨hread, hcond⟩ := hj.unread v hv
    refine ⟨fun u hu => ?_, fun c hc => ?_⟩
    · rw [hr.reads] at hu
      split at hu
      · cases hu
      · exact hread u (by simpa using hu)
    · exact hcond c (by simpa [hr.condition] using hc)

theorem length_liveInstrs_lt (hf : f.Placed) (hg : g.Placed)
    (hsub : ∀ j c, g.home? j = some c → f.home? j = some c) (hi : f.home? i = some b)
    (hgone : g.home? i = none) : g.liveInstrs.length < f.liveInstrs.length := by
  have hnot : i ∉ g.liveInstrs := by
    rw [hg.mem_liveInstrs, hgone]
    simp
  have hnd : (i :: g.liveInstrs).Nodup := List.nodup_cons.mpr ⟨hnot, hg.nodup_liveInstrs⟩
  have hmem : i :: g.liveInstrs ⊆ f.liveInstrs := by
    intro j hj
    rw [hf.mem_liveInstrs]
    rcases List.mem_cons.mp hj with rfl | hj
    · exact ⟨b, hi⟩
    · obtain ⟨c, hc⟩ := hg.mem_liveInstrs.mp hj
      exact ⟨c, hsub j c hc⟩
  simpa using (hnd.subperm hmem).length_le

section Rounds

variable {I : Function → Prop} (htidy : ∀ {f}, I f → f.Tidy)
  (hstep : ∀ {f g i}, I f → f.Dead i → f.remove i = .ok g → I g)

include htidy hstep

theorem removeDead_ok {l : List InstrId} (hf : I f) (hnd : l.Nodup) (hl : ∀ i ∈ l, f.Dead i) :
    ∃ g, l.foldlM remove f = .ok g ∧ I g ∧ (∀ j b, g.home? j = some b → f.home? j = some b) ∧
      ∀ i ∈ l, g.home? i = none := by
  induction l generalizing f with
  | nil => exact ⟨f, rfl, hf, fun _ _ h => h, by simp⟩
  | cons i l ih =>
    obtain ⟨hnot, hnd⟩ := List.nodup_cons.mp hnd
    have hi := hl i List.mem_cons_self
    obtain ⟨g, hg, -, -, hdead⟩ := hi.remove_ok (htidy hf)
    obtain ⟨k, hk, hinv, hsub, hgone⟩ := ih (hstep hf hi hg) hnd fun j hj => by
      refine hdead j ?_ (hl j (List.mem_cons_of_mem i hj))
      rintro rfl
      exact hnot hj
    have hless := shed_of_remove hg
    refine ⟨k, ?_, hinv, fun j b hj => hless.home_before (hsub j b hj), fun j hj => ?_⟩
    · simp only [List.foldlM_cons, hg, ok_bind, hk]
    · rcases List.mem_cons.mp hj with rfl | hj
      · by_contra hsome
        obtain ⟨b, hb⟩ := Option.ne_none_iff_exists'.mp hsome
        exact (hless.home_iff.mp (hsub j b hb)).1 rfl
      · exact hgone j hj

/-- The rounds come to an end, and then nothing is dead. -/
theorem sweepWithin_ok {rounds : Nat} (hf : I f) (hn : f.liveInstrs.length < rounds) :
    ∃ g, sweepWithin rounds f = .ok g ∧ I g ∧ ∀ i, ¬ g.Dead i := by
  induction rounds generalizing f with
  | zero => omega
  | succ rounds ih =>
    have hplaced := (htidy hf).linked.placed
    cases hd : f.deadDerefs with
    | nil =>
      refine ⟨f, ?_, hf, fun i hi => ?_⟩
      · simp only [sweepWithin, hd]
        rfl
      · simpa [hd] using (mem_deadDerefs (htidy hf)).mpr hi
    | cons i l =>
      have hdead : ∀ j ∈ (i :: l).reverse, f.Dead j := by
        intro j hj
        exact (mem_deadDerefs (htidy hf)).mp (by rw [hd]; exact List.mem_reverse.mp hj)
      have hnd : (i :: l).reverse.Nodup := by
        rw [List.nodup_reverse, ← hd]
        exact hplaced.nodup_liveInstrs.filter _
      obtain ⟨g, hg, hinv, hsub, hgone⟩ := removeDead_ok htidy hstep hf hnd hdead
      obtain ⟨b, hb⟩ := (hdead i (by simp)).home
      have hlt := length_liveInstrs_lt hplaced (htidy hinv).linked.placed hsub hb
        (hgone i (by simp))
      obtain ⟨k, hk, hinv', hnone⟩ := ih hinv (by omega)
      refine ⟨k, ?_, hinv', hnone⟩
      simp only [sweepWithin, hd, List.isEmpty_cons, hg, ok_bind]
      exact hk

theorem sweepDerefs_ok (hf : I f) : ∃ g, f.sweepDerefs = .ok g ∧ I g ∧ ∀ i, ¬ g.Dead i :=
  sweepWithin_ok htidy hstep hf (Nat.lt_succ_self _)

end Rounds

theorem Sound.sweepDerefs [FloatOps] (hf : f.Sound T vars) :
    ∃ g, f.sweepDerefs = .ok g ∧ (g.Sound T vars ∧ f.Swept g) ∧ ∀ i, ¬ g.Dead i := by
  refine sweepDerefs_ok (I := fun g => g.Sound T vars ∧ f.Swept g) (fun h => h.1.tidy)
    (fun h hi hg => ?_) ⟨hf, .refl f⟩
  obtain ⟨hsound, hswept⟩ := hi.sound h.1 hg
  exact ⟨hsound, h.2.trans hswept⟩

theorem Swept.wideAccesses_le [FloatOps] (h : f.Swept g) (hf : f.Placed) (hg : g.Placed) :
    g.wideAccesses.length ≤ f.wideAccesses.length := by
  obtain ⟨S, hs⟩ := h.shed
  refine ((hg.nodup_liveInstrs.filter _).subperm fun j hj => ?_).length_le
  obtain ⟨b, body, hb, hbody, hw⟩ := hg.mem_wideAccesses.mp hj
  exact hf.mem_wideAccesses.mpr ⟨b, body, hs.home_before hb, by rw [← hs.body, hbody], hw⟩

theorem Chain.congr {root : VarId} {x : Variable} {n : Nat} {v : ValueId} {t : VarType}
    (h : f.Chain root x n v t) (hs : g.source? = f.source?) (hb : g.body? = f.body?) :
    g.Chain root x n v t := by
  induction h with
  | var hsource hbody => exact .var (by rw [hs, hsource]) (by rw [hb, hbody])
  | element hsource hbody _ ih => exact .element (by rw [hs, hsource]) (by rw [hb, hbody]) ih

theorem Swept.varLeft [FloatOps] {stage : Stage} {modes : Mode} (h : f.Swept g)
    (hleft : g.VarLeft stage modes vars b i) : f.VarLeft stage modes vars b i := by
  obtain ⟨S, hs⟩ := h.shed
  obtain ⟨hi, a, v, root, x, n, t, hbody, hkind, hv, hx, hchain, hsplit⟩ := hleft
  exact ⟨hs.home_before hi, a, v, root, x, n, t, by rw [← hs.body, hbody], hkind, hv, hx,
    hchain.congr hs.source.symm hs.body.symm, hsplit⟩

end Function

end ShaderSSA
