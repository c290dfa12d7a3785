import ShaderSSA.DerefChain
import ShaderSSA.Proofs.Underway

/-! Variables that are dropped while a deref still names them. A variable is dropped as soon as one
access to it is taken apart, and its derefs are swept only if nothing reads them any more; so all
derefs that are left name declared variables if and only if every access to the dropped variables
has been taken apart. -/

namespace ShaderSSA

namespace Splitting

variable {vars : Variables} {t t' : Splitting} {root : VarId} {May : ValueId → Prop} {Emits : Prop}
  {p q : Splitting × Function}

/-- The variables of the start are there and declared as they were, and those that were added stand
for channels. -/
structure Since (vars : Variables) (t : Splitting) : Prop where
  kept : vars.Extends t.vars
  declared : ∀ v ∈ vars.declared, v ∈ t.vars.declared
  fresh : ∀ c ∈ t.channels, c.var ∈ t.vars.declared ∧ vars.get? c.var = none

theorem Since.creates (h : t.Since vars) (hc : t.Creates root t') : t'.Since vars := by
  cases hc with
  | @mk x channel type hx _ _ _ =>
    obtain ⟨hext, -⟩ := t.vars.extends_add (x.onChannel channel type)
    refine ⟨h.kept.trans hext, fun v hv => List.mem_append_left _ (h.declared v hv), ?_⟩
    intro c hc
    rcases List.mem_append.mp hc with hc | hc
    · obtain ⟨hd, hnone⟩ := h.fresh c hc
      exact ⟨List.mem_append_left _ hd, hnone⟩
    · obtain rfl := List.mem_singleton.mp hc
      refine ⟨List.mem_append_right _ (List.mem_singleton_self _), ?_⟩
      cases hv : vars.get? (t.vars.add (x.onChannel channel type)).1 with
      | none => rfl
      | some y =>
        have := h.kept _ y hv
        simp [Variables.get?, Variables.add, Arena.alloc, Arena.get?_size] at this

theorem Since.moves (h : p.1.Since vars) (hm : Relation.ReflTransGen (Moves root May Emits) p q) :
    q.1.Since vars := by
  induction hm with
  | refl => exact h
  | tail _ hstep ih =>
    cases hstep with
    | create _ hc => exact ih.creates hc
    | insert _ => exact ih

theorem channels_of_moves (hm : Relation.ReflTransGen (Moves root May Emits) p q) :
    (∀ c ∈ p.1.channels, c ∈ q.1.channels) ∧
      ∀ c ∈ q.1.channels, c ∈ p.1.channels ∨ c.source = root ∧ Emits := by
  induction hm with
  | refl => exact ⟨fun _ hc => hc, fun _ hc => .inl hc⟩
  | tail _ hstep ih =>
    cases hstep with
    | insert _ => exact ih
    | create he hc =>
      cases hc
      refine ⟨fun c hc => List.mem_append_left _ (ih.1 c hc), fun c hc => ?_⟩
      rcases List.mem_append.mp hc with hc | hc
      · exact ih.2 c hc
      · obtain rfl := List.mem_singleton.mp hc
        exact .inr ⟨rfl, he⟩

end Splitting

/-- A run over a list. From each element to the next `I` is kept and the state only grows, so that
what holds when an element is done holds in the end. -/
theorem SplitEdit.forall₂_of_mapM {α β : Type} {m : α → SplitEdit β} {I : Splitting → Prop}
    {S : Splitting → Splitting → Prop} {R : Splitting → α → β → Prop} (hrefl : ∀ t, S t t)
    (htrans : ∀ {t t' t''}, S t t' → S t' t'' → S t t'')
    (hgrow : ∀ {t t' a b}, S t t' → R t a b → R t' a b) {l : List α} {l' : List β}
    (hm : ∀ a ∈ l, ∀ t b t', I t → (m a).run t = .ok (b, t') → I t' ∧ S t t' ∧ R t' a b)
    {t t' : Splitting} (ht : I t) (hrun : (l.mapM m).run t = .ok (l', t')) :
    I t' ∧ S t t' ∧ List.Forall₂ (R t') l l' := by
  induction l generalizing t l' with
  | nil =>
    cases hrun
    exact ⟨ht, hrefl _, .nil⟩
  | cons a l ih =>
    simp only [List.mapM_cons, StateT.run_bind, bind_eq_ok] at hrun
    obtain ⟨⟨b, t₁⟩, hb, ⟨bs, t₂⟩, hbs, hrun⟩ := hrun
    cases hrun
    obtain ⟨ht₁, hs₁, hr⟩ := hm a List.mem_cons_self t b t₁ ht hb
    obtain ⟨ht₂, hs₂, hall⟩ := ih (fun a' ha' => hm a' (List.mem_cons_of_mem a ha')) ht₁ hbs
    exact ⟨ht₂, htrans hs₁ hs₂, .cons (hgrow hs₂ hr) hall⟩

namespace Function

variable {f g f₀ : Function} {i j : InstrId} {v w : ValueId} {b : BlockId} {stage : Stage}
  {modes : Mode} {vars : Variables} {t t' : Splitting} {root : VarId} {a : Access}

theorem TakesApart.since (h : TakesApart t f i a v root t' g) (ht : t.Since vars) :
    t'.Since vars := by
  cases h with
  | load _ _ hmoves =>
    have := ht.moves hmoves
    exact ⟨this.kept, this.declared, this.fresh⟩
  | store _ hmoves =>
    have := ht.moves hmoves
    exact ⟨this.kept, this.declared, this.fresh⟩

theorem TakesApart.channels (h : TakesApart t f i a v root t' g) :
    (∀ c ∈ t.channels, c ∈ t'.channels) ∧
      ∀ c ∈ t'.channels, c ∈ t.channels ∨ c.source = root ∧ a.Emits := by
  cases h with
  | load _ _ hmoves => exact Splitting.channels_of_moves hmoves
  | store _ hmoves => exact Splitting.channels_of_moves hmoves

/-- Visits that, where they succeed, keep the invariant `I`, leave every other instruction where it
is and leave of `Q` what is still to be visited. -/
structure Visits {σ : Type} (step : Function → InstrId → StateT σ Checked Function)
    (I : σ → Function → Prop) (Q : σ → Function → BlockId → InstrId → Prop) : Prop where
  placed : ∀ s f, I s f → f.Placed
  home : ∀ s f b j, Q s f b j → f.home? j = some b
  step : ∀ s f i b g s', I s f → f.home? i = some b → (step f i).run s = .ok (g, s') →
    I s' g ∧ (∀ j d, j ≠ i → f.home? j = some d → g.home? j = some d) ∧
    ∀ d j, Q s' g d j → j ≠ i ∧ Q s f d j

section Visits

variable {σ : Type} {step : Function → InstrId → StateT σ Checked Function}
  {I : σ → Function → Prop} {Q : σ → Function → BlockId → InstrId → Prop} {s s' : σ}

theorem Visits.instrs (h : Visits step I Q) {l : List InstrId} (hi : I s f) (hnd : l.Nodup)
    (hl : ∀ i ∈ l, ∃ b, f.home? i = some b) (hrun : (l.foldlM step f).run s = .ok (g, s')) :
    I s' g ∧ ∀ d j, Q s' g d j → j ∉ l ∧ Q s f d j := by
  induction l generalizing f s with
  | nil =>
    cases hrun
    exact ⟨hi, fun d j hq => ⟨by simp, hq⟩⟩
  | cons i l ih =>
    rw [List.foldlM_cons, StateT.run_bind, bind_eq_ok] at hrun
    obtain ⟨⟨k, s₁⟩, hk, hrun⟩ := hrun
    obtain ⟨b, hb⟩ := hl i List.mem_cons_self
    obtain ⟨hnot, hnd⟩ := List.nodup_cons.mp hnd
    obtain ⟨hi₁, hkeep, hq₁⟩ := h.step s f i b k s₁ hi hb hk
    have hlive : ∀ j ∈ l, ∃ b, k.home? j = some b := by
      intro j hj
      obtain ⟨d, hd⟩ := hl j (List.mem_cons_of_mem i hj)
      exact ⟨d, hkeep j d (fun he => hnot (he ▸ hj)) hd⟩
    obtain ⟨hi₂, hq₂⟩ := ih hi₁ hnd hlive hrun
    refine ⟨hi₂, fun d j hq => ?_⟩
    obtain ⟨hjl, hqj⟩ := hq₂ d j hq
    obtain ⟨hji, hqj⟩ := hq₁ d j hqj
    exact ⟨by simp [hji, hjl], hqj⟩

theorem Visits.blocks (h : Visits step I Q) {l : List BlockId} (hi : I s f)
    (hrun : (l.foldlM (fun (f : Function) b => (f.blockInstrs b).foldlM step f) f).run s =
      .ok (g, s')) : I s' g ∧ ∀ d j, Q s' g d j → d ∉ l ∧ Q s f d j := by
  induction l generalizing f s with
  | nil =>
    cases hrun
    exact ⟨hi, fun d j hq => ⟨by simp, hq⟩⟩
  | cons b l ih =>
    rw [List.foldlM_cons, StateT.run_bind, bind_eq_ok] at hrun
    obtain ⟨⟨k, s₁⟩, hk, hrun⟩ := hrun
    have hp := h.placed s f hi
    obtain ⟨hi₁, hq₁⟩ := h.instrs hi (hp.nodup b) (fun i hi => ⟨b, hp.mem_iff.mp hi⟩) hk
    obtain ⟨hi₂, hq₂⟩ := ih hi₁ hrun
    refine ⟨hi₂, fun d j hq => ?_⟩
    obtain ⟨hdl, hqj⟩ := hq₂ d j hq
    obtain ⟨hjb, hqj⟩ := hq₁ d j hqj
    have hdb : d ≠ b := by
      rintro rfl
      exact hjb (hp.mem_iff.mpr (h.home s f d j hqj))
    exact ⟨by simp [hdb, hdl], hqj⟩

theorem Visits.layout (h : Visits step I Q) (hi : I s f)
    (hrun : (f.layout.foldlM (fun (f : Function) b => (f.blockInstrs b).foldlM step f) f).run s =
      .ok (g, s')) : I s' g ∧ ∀ d j, ¬ Q s' g d j := by
  obtain ⟨hi', hq⟩ := h.blocks hi hrun
  refine ⟨hi', fun d j hqj => ?_⟩
  obtain ⟨hnot, hqf⟩ := hq d j hqj
  exact hnot ((h.placed s f hi).mem_layout (h.home s f d j hqf))

end Visits

/-- What the split has made of `f₀` in the end: everything that was to be taken apart is. -/
structure Through (stage : Stage) (modes : Mode) (vars : Variables) (f₀ : Function)
    (t : Splitting) (f : Function) : Prop extends Underway stage modes vars f₀ t f where
  gone : ∀ j b a v root, f₀.home? j = some b → f₀.Splits stage modes vars j a v root →
    f₀.SmallAt j → f.home? j = none ∧ (a.Emits → ChannelBuild.Opened root t)

theorem Through.mono (h : Through stage modes vars f₀ t f)
    (ht : ∀ c ∈ t.channels, c ∈ t'.channels) : Through stage modes vars f₀ t' f where
  toUnderway := h.toUnderway.mono ht
  gone j b a v root hb hs hj := by
    obtain ⟨hgone, hopen⟩ := h.gone j b a v root hb hs hj
    refine ⟨hgone, fun he => ?_⟩
    obtain ⟨c, hc, hroot⟩ := hopen he
    exact ⟨c, ht c hc, hroot⟩

theorem splitVars_through {A : Splitting → Function → Prop} (hf : f₀.Reached) (ht : t.Since vars)
    (hA : A t f₀) (hstep : ∀ t f i b t' g, Underway stage modes vars f₀ t f → t.Since vars →
      A t f → f.home? i = some b → (splitVarInstr stage modes f i).run t = .ok (g, t') → A t' g)
    (hrun : (f₀.splitVars stage modes).run t = .ok (g, t')) :
    Through stage modes vars f₀ t' g ∧ t'.Since vars ∧ A t' g ∧
      ∀ c ∈ t.channels, c ∈ t'.channels := by
  -- Of what was to be taken apart at the start, what is still live is still to be visited.
  let Left : Splitting → Function → BlockId → InstrId → Prop := fun _ f b j =>
    f.home? j = some b ∧ f₀.SmallAt j ∧ ∃ a v root, f₀.Splits stage modes vars j a v root
  let I : Splitting → Function → Prop := fun s f => Underway stage modes vars f₀ s f ∧
    s.Since vars ∧ A s f ∧ (∀ c ∈ t.channels, c ∈ s.channels) ∧
    ∀ j b a v root, f₀.home? j = some b → f₀.Splits stage modes vars j a v root → f₀.SmallAt j →
      a.Emits → f.home? j = some b ∨ ChannelBuild.Opened root s
  have hvisits : Visits (splitVarInstr stage modes) I Left := by
    refine ⟨fun s f h => h.1.reached.linked.placed, fun s f b j h => h.1, ?_⟩
    rintro s f i b g s' ⟨hu, hs, ha, hc, ho⟩ hb hrun
    have ha' := hstep s f i b s' g hu hs ha hb hrun
    rcases splitVarInstr_cases hrun with ⟨rfl, rfl, hnot⟩ | ⟨a, v, root, hsplits, hapart⟩
    · refine ⟨⟨hu, hs, ha', hc, ho⟩, fun _ _ _ h => h, fun d j hq => ⟨?_, hq⟩⟩
      rintro rfl
      obtain ⟨-, hj, a, v, root, hsp⟩ := hq
      obtain ⟨srcs, hsp'⟩ := hu.splits hsp hj hs.kept
      exact hnot _ _ _ hsp'
    · obtain ⟨-, hu'⟩ := hu.takesApart hs.kept hsplits hapart
      obtain ⟨hmono, -⟩ := hapart.channels
      have hhome : ∀ j d, j ≠ i → f.home? j = some d → g.home? j = some d := by
        intro j d hj hd
        obtain ⟨body, hbody⟩ := exists_body hd
        rw [hapart.home hj hbody, hd]
      refine ⟨⟨hu', hapart.since hs, ha', fun c h => hmono c (hc c h), ?_⟩, hhome, ?_⟩
      · intro j d a' v' root' hd hsp hj he
        by_cases hji : j = i
        · subst hji
          obtain ⟨srcs, hsp'⟩ := hu.splits hsp hj hs.kept
          obtain ⟨rfl, rfl, rfl⟩ := hsplits.unique hsp'
          exact .inr (hapart.opened he)
        · rcases ho j d a' v' root' hd hsp hj he with hlive | ⟨c, hc, hroot⟩
          · exact .inl (hhome j d hji hlive)
          · exact .inr ⟨c, hmono c hc, hroot⟩
      · rintro d j ⟨hd, hrest⟩
        have hji : j ≠ i := by
          rintro rfl
          simp [hapart.gone] at hd
        refine ⟨hji, ?_, hrest⟩
        obtain ⟨-, a', v', root', hsp⟩ := hrest
        obtain ⟨ρ, hρ, -⟩ := hu.body j _ hsp.body
        rwa [hapart.home hji hρ] at hd
  obtain ⟨⟨hu, hs, ha, hc, ho⟩, hleft⟩ := hvisits.layout
    ⟨.refl hf t, ht, hA, fun _ h => h, fun j b _ _ _ hb _ _ _ => .inl hb⟩ hrun
  refine ⟨⟨hu, fun j b a v root hb hsp hj => ?_⟩, hs, ha, hc⟩
  have hgone : g.home? j = none := by
    cases hd : g.home? j with
    | none => rfl
    | some d => exact absurd ⟨hd, hj, a, v, root, hsp⟩ (hleft d j)
  refine ⟨hgone, fun he => ?_⟩
  rcases ho j b a v root hb hsp hj he with hlive | hopen
  · simp [hgone] at hlive
  · exact hopen

/-- The split of all functions in turn. `G` and `A` are whatever else the visits keep, of the
variables and of each function. -/
theorem mapM_splitVars_through {G : Splitting → Prop} {A : Function → Function → Prop}
    {fs gs : List Function} (hf : ∀ f ∈ fs, f.Reached) (ht : t.Since vars) (hG : G t)
    (hA : ∀ f ∈ fs, A f f)
    (hstep : ∀ f₀ ∈ fs, ∀ t f i b t' g, Underway stage modes vars f₀ t f → t.Since vars → G t →
      A f₀ f → f.home? i = some b → (splitVarInstr stage modes f i).run t = .ok (g, t') →
      G t' ∧ A f₀ g)
    (hrun : (fs.mapM (splitVars stage modes)).run t = .ok (gs, t')) :
    t'.Since vars ∧ G t' ∧ (∀ c ∈ t.channels, c ∈ t'.channels) ∧
      List.Forall₂ (fun f g => Through stage modes vars f t' g ∧ A f g) fs gs := by
  suffices h : (t'.Since vars ∧ G t') ∧ (∀ c ∈ t.channels, c ∈ t'.channels) ∧
      List.Forall₂ (fun f g => Through stage modes vars f t' g ∧ A f g) fs gs from
    ⟨h.1.1, h.1.2, h.2.1, h.2.2⟩
  refine SplitEdit.forall₂_of_mapM (I := fun t => t.Since vars ∧ G t)
    (S := fun t t' => ∀ c ∈ t.channels, c ∈ t'.channels)
    (R := fun t f g => Through stage modes vars f t g ∧ A f g) (fun _ _ h => h)
    (fun h h' c hc => h' c (h c hc)) (fun h hr => ⟨hr.1.mono h, hr.2⟩) ?_ ⟨ht, hG⟩ hrun
  rintro f hmem t g t' ⟨ht, hG⟩ hg
  obtain ⟨hthrough, hs, hkept, hsub⟩ := splitVars_through (A := fun t g => G t ∧ A f g)
    (hf f hmem) ht ⟨hG, hA f hmem⟩
    (fun t k i b t' g hu hs h hb hrun => hstep f hmem t k i b t' g hu hs h.1 h.2 hb hrun) hg
  exact ⟨⟨hs, hkept.1⟩, hsub, hthrough, hkept.2⟩

/-- A deref is removed. -/
def DropsDeref (f g : Function) : Prop :=
  ∃ i d, f.body? i = some (.deref d) ∧ f.remove i = .ok g

theorem dropsDeref_of_foldlM {l : List InstrId} (hl : ∀ i ∈ l, ∃ d, f.body? i = some (.deref d))
    (h : l.foldlM remove f = .ok g) : Relation.ReflTransGen DropsDeref f g := by
  induction l generalizing f with
  | nil =>
    cases h
    exact .refl
  | cons i l ih =>
    rw [List.foldlM_cons, bind_eq_ok] at h
    obtain ⟨k, hk, h⟩ := h
    obtain ⟨d, hd⟩ := hl i List.mem_cons_self
    refine .head ⟨i, d, hd, hk⟩ (ih (fun j hj => ?_) h)
    rw [(shed_of_remove hk).body]
    exact hl j (List.mem_cons_of_mem i hj)

theorem exists_deref_of_mem_deadDerefs (h : i ∈ f.deadDerefs) :
    ∃ d, f.body? i = some (.deref d) := by
  obtain ⟨-, h⟩ := List.mem_filter.mp h
  obtain ⟨x, hx, h⟩ := (Option.any_eq_true _ _).mp h
  obtain ⟨hd, -⟩ := Bool.and_eq_true_iff.mp h
  obtain ⟨d, hd⟩ := Option.isSome_iff_exists.mp hd
  exact ⟨d, by rw [body?, hx, Option.map_some, Body.deref?_eq_some.mp hd]⟩

/-- A sweep that ends has removed derefs and has left none that could go. -/
theorem sweepWithin_drops {rounds : Nat} (h : sweepWithin rounds f = .ok g) :
    Relation.ReflTransGen DropsDeref f g ∧ g.deadDerefs = [] := by
  induction rounds generalizing f with
  | zero => cases h
  | succ rounds ih =>
    rw [sweepWithin] at h
    split at h
    · rename_i hnone
      cases h
      exact ⟨.refl, List.isEmpty_iff.mp hnone⟩
    · obtain ⟨k, hk, hrest⟩ := bind_eq_ok.mp h
      obtain ⟨hdrops, hnone⟩ := ih hrest
      have hk' := dropsDeref_of_foldlM
        (fun i hi => exists_deref_of_mem_deadDerefs (List.mem_reverse.mp hi)) hk
      exact ⟨hk'.trans hdrops, hnone⟩

/-- What a deref that stays is read by keeps its whole chain standing. -/
theorem standing_of_dropped (hf : f.Linked) (h : f.Standing root v) (hg : f.Dropped i g)
    (hread : ∃ us u, f.uses? v = some us ∧ u ∈ us) : g.Standing root v := by
  have hstays : ∀ {w j}, f.source? w = some j → (∃ us u, f.uses? w = some us ∧ u ∈ us) →
      (f.home? j).isSome → (g.home? j).isSome := by
    rintro w j hj ⟨us, u, hus, hu⟩ hlive
    have hji : j ≠ i := by
      rintro rfl
      obtain ⟨hnone, -⟩ := hg.unread w ((hf.defined.iff j w).mpr hj)
      obtain rfl : us = [] := by simpa [hnone] using hus.symm
      simp at hu
    rwa [hg.home, if_neg hji]
  induction h with
  | var hs hi hb =>
    exact .var (by rw [hg.source, hs]) (hstays hs hread hi) (by rw [hg.body, hb])
  | @element v parent index j mode type hs hi hb hp ih =>
    refine .element (by rw [hg.source, hs]) (hstays hs hread hi) (by rw [hg.body, hb]) (ih ?_)
    obtain ⟨c, hc⟩ := Option.isSome_iff_exists.mp hi
    have hparent : f.reads? ⟨j, 0⟩ = some parent := reads?_iff.mpr ⟨c, _, hc, hb, rfl⟩
    obtain ⟨x, hx⟩ := hasValue_iff.mp (hasValue_of_isPlace hp.isPlace)
    have huses : f.uses? parent = some x.uses := by simp [uses?, hx]
    exact ⟨x.uses, ⟨j, 0⟩, huses,
      ((hf.recordedBy j (Underway.smallAt_of_deref hb)).mem_iff huses).mpr hparent⟩

theorem standing_of_drops (hf : f.Linked) (h : f.Standing root v) {us : List Use} {u : Use}
    (hus : f.uses? v = some us) (hu : u ∈ us) (ha : f.body? u.instr = some (.access a))
    (hd : Relation.ReflTransGen DropsDeref f g) : g.Standing root v := by
  suffices g.Linked ∧ g.Standing root v ∧ g.body? u.instr = some (.access a) ∧
      ∃ us, g.uses? v = some us ∧ u ∈ us from this.2.1
  induction hd with
  | refl => exact ⟨hf, h, ha, us, hus, hu⟩
  | tail _ hstep ih =>
    obtain ⟨hk, hstand, hbody, us, hus, hu⟩ := ih
    obtain ⟨i, d, hd, hr⟩ := hstep
    have hg := dropped_of_remove hr
    obtain ⟨us', hus', hmem⟩ := hg.uses_after hus
    refine ⟨hk.change (.remove hr), standing_of_dropped hk hstand hg ⟨us, u, hus, hu⟩,
      by rw [hg.body, hbody], us', hus', ?_⟩
    refine (hmem u hu).resolve_right ?_
    rintro rfl
    simp [hbody] at hd

theorem Rooted.exists_root {P : InstrId → Prop} (h : f.Rooted P root v) :
    ∃ i body, P i ∧ f.body? i = some body ∧ body.root? = some root := by
  induction h with
  | var _ hi hb => exact ⟨_, _, hi, hb, rfl⟩
  | element _ _ _ _ ih => exact ih

/-- Every deref of a variable that is not removed names a declared one. -/
def RootsDeclared (f : Function) (vars : Variables) : Prop :=
  ∀ i b body v, f.home? i = some b → f.body? i = some body → body.root? = some v →
    v ∈ vars.declared

/-- Derefs are read only as derefs, and accesses to several channels go through standing chains. -/
structure Orderly (f : Function) : Prop where
  small : f.Small
  apart : f.PlacesApart
  wide : ∀ i b a, f.home? i = some b → f.body? i = some (.access a) → a.kind.isDerefAccess →
    a.width ≠ 1 → ∃ v root, a.srcs[0]? = some v ∧ f.Standing root v

theorem smallAt_access (ha : f.body? i = some (.access a)) :
    f.SmallAt i ↔ a.srcs.length ≤ 256 := by
  have hsrcs : f.srcs? i = some a.srcs := by rw [srcs?_eq_map, ha]; rfl
  constructor
  · intro h
    exact h a.srcs hsrcs
  · intro h vs hvs
    obtain rfl : a.srcs = vs := by simpa [hsrcs] using hvs
    exact h

/-- Nothing has come to read the derefs of the start. -/
def Fading (f₀ f : Function) : Prop :=
  ∀ v us us', f₀.isPlace v → f₀.uses? v = some us → f.uses? v = some us' → ∀ u ∈ us', u ∈ us

theorem Fading.refl (f : Function) : f.Fading f := by
  intro v us us' _ hus hus' u hu
  obtain rfl : us = us' := by simpa [hus] using hus'
  exact hu

theorem Fading.of_uses (h : f₀.Fading f)
    (hu : ∀ v us', f₀.isPlace v → g.uses? v = some us' →
      ∃ us, f.uses? v = some us ∧ ∀ u ∈ us', u ∈ us) : f₀.Fading g := by
  intro v us us' hv hus hus' u hmem
  obtain ⟨us₁, hus₁, hsub⟩ := hu v us' hv hus'
  exact h v us us₁ hv hus hus₁ u (hsub u hmem)

theorem Fading.moves {May : ValueId → Prop} {Emits : Prop} {p q : Splitting × Function}
    (h : f₀.Fading p.2) (hp : Underway stage modes vars f₀ p.1 p.2)
    (hmay : ∀ v, May v → f₀.isPlace v = false)
    (hm : Relation.ReflTransGen (Splitting.Moves root May Emits) p q) : f₀.Fading q.2 := by
  induction hm with
  | refl => exact h
  | @tail r q hprev hstep ih =>
    cases hstep with
    | create => exact ih
    | @insert s k l hi =>
      obtain ⟨c, body, dest, n, hi, hpiece⟩ := hi
      refine ih.of_uses fun v us' hv hus' => ?_
      have hk : Underway stage modes vars f₀ s k := hp.moves hprev
      obtain ⟨b, pos, -, -, -, -, -, rfl⟩ := insert_eq_ok.mp hi
      have hne : v ≠ ⟨k.values.size⟩ := ne_of_hasValue (hk.hasValue (hasValue_of_isPlace hv))
      rw [uses?_inserted, if_neg hne] at hus'
      obtain ⟨us, hus, rfl⟩ := Option.map_eq_some_iff.mp hus'
      have hnone : Use.ofSources ⟨k.instrs.size⟩ v body.srcs.zipIdx = [] := by
        refine List.filterMap_eq_nil_iff.mpr fun p hp => if_neg ?_
        rintro rfl
        have := hmay _ (hpiece.srcs p.1 (List.fst_mem_of_mem_zipIdx hp))
        simp [hv] at this
      exact ⟨us, hus, by simp [hnone]⟩

theorem Standing.parent {parent : ValueId} (h : f.Standing root v)
    (hp : f.derefParent v = .ok (some parent)) : f.Standing root parent := by
  obtain ⟨index, mode, type, hd⟩ := derefParent_eq_ok.mp hp
  cases h with
  | var hs _ hb => simp [deref_eq_ok hs hb, Body.deref?] at hd
  | element hs _ hb hparent =>
    rw [deref_eq_ok hs hb] at hd
    simp only [Body.deref?, Except.ok.injEq, Option.some.injEq, Deref.mk.injEq,
      DerefStep.element.injEq] at hd
    obtain ⟨⟨rfl, rfl⟩, -, -⟩ := hd
    exact hparent

theorem Standing.below (h : f.Standing root v) (hw : f.Below v w) : f.Standing root w := by
  induction hw with
  | refl => exact h
  | tail _ hstep ih => exact ih.parent hstep

theorem Standing.source (h : f.Standing root v) : ∃ j d, f.source? v = some j ∧
    (f.home? j).isSome ∧ f.body? j = some (.deref d) := by
  cases h with
  | var hs hi hb => exact ⟨_, _, hs, hi, hb⟩
  | element hs hi hb _ => exact ⟨_, _, hs, hi, hb⟩

theorem Fading.slot (h : f₀.Fading f) (hf₀ : f₀.Reached) (ho : f₀.Orderly) (hf : f.Linked)
    (hj : f.SmallAt j) {slot : Nat} (hread : f.reads? ⟨j, slot⟩ = some v) (hv : f₀.isPlace v) :
    slot = 0 := by
  obtain ⟨x, hx⟩ := hasValue_iff.mp (hf.sourced.hasValue_of_reads hread)
  obtain ⟨y, hy⟩ := hasValue_iff.mp (hasValue_of_isPlace hv)
  have huses : f.uses? v = some x.uses := by simp [uses?, hx]
  have huses₀ : f₀.uses? v = some y.uses := by simp [uses?, hy]
  have hmem := ((hf.recordedBy j hj).mem_iff huses).mpr hread
  have hmem₀ := h v y.uses x.uses hv huses₀ huses _ hmem
  have hread₀ := ((hf₀.linked.recorded ho.small).mem_iff huses₀).mp hmem₀
  obtain ⟨b, body, hb, hbody, hsrc⟩ := reads?_iff.mp hread₀
  exact (Body.isPlaceSlot_zero (ho.apart.reads j b body hb hbody slot v hsrc hv)).1

theorem Fading.takesApart (h : f₀.Fading f) (hu : Underway stage modes vars f₀ t f)
    (hf₀ : f₀.Reached) (ho : f₀.Orderly) (hi : f.home? i = some b)
    (hs : f.Splits stage modes t.vars i a v root) (hsmall : f₀.SmallAt i)
    (hstand : f.Standing root v) (ht : TakesApart t f i a v root t' g) : f₀.Fading g := by
  have hf := hu.reached.linked
  obtain ⟨a₀, ha₀⟩ := hu.access_of_splits hs
  have hfresh : ∀ w, f.hasValue w = false → f₀.isPlace w = false := by
    intro w hw
    by_contra hp
    simp [hu.hasValue (hasValue_of_isPlace (by simpa using hp))] at hw
  have hmay : ∀ w, f.Rereads a v w → f₀.isPlace w = false := by
    rintro w (hw | ⟨z, parent, mode, type, hbelow, hz⟩ | hw)
    · exact hfresh w hw
    · by_contra hp
      obtain ⟨j, d, hj, hlive, hd⟩ := (hstand.below hbelow).source
      obtain ⟨c, hc⟩ := Option.isSome_iff_exists.mp hlive
      rw [deref_eq_ok hj hd] at hz
      obtain rfl : d = ⟨.element parent w, mode, type⟩ := by simpa [Body.deref?] using hz
      have hread : f.reads? ⟨j, 1⟩ = some w := reads?_iff.mpr ⟨c, _, hc, hd, rfl⟩
      have := h.slot hf₀ ho hf (Underway.smallAt_of_deref hd) hread (by simpa using hp)
      omega
    · by_contra hp
      have hread : f.reads? ⟨i, 1⟩ = some w := reads?_iff.mpr ⟨b, _, hi, hs.body, hw⟩
      have := h.slot hf₀ ho hf (hu.smallAt hsmall ha₀) hread (by simpa using hp)
      omega
  cases ht with
  | @load t₁ k l _ x w _ hd hmoves hw _ hr hg =>
    have hk : f₀.Fading k := Fading.moves (p := (t, f)) h hu hmay hmoves
    have hplace : f₀.isPlace x = false := hu.isPlace_dest ha₀ hd
    have hhanded := handed_of_replaceUses hr
    have hl : f₀.Fading l := by
      refine hk.of_uses fun z us' hz hus' => ⟨us', ?_, fun u hu => hu⟩
      have hzx : z ≠ x := by
        rintro rfl
        simp [hz] at hplace
      have hzw : z ≠ w := by
        rintro rfl
        simp [hfresh z hw] at hz
      rw [← hhanded.uses z hzx hzw, hus']
    exact hl.of_uses fun z us' _ hus' => (shed_of_remove hg).uses_before hus'
  | store _ hmoves _ hg =>
    have hk := Fading.moves (p := (t, f)) h hu hmay hmoves
    exact hk.of_uses fun z us' _ hus' => (shed_of_remove hg).uses_before hus'

theorem shed_of_drops (h : Relation.ReflTransGen DropsDeref f g) : ∃ S, f.Shed S g := by
  induction h with
  | refl => exact ⟨_, .refl f⟩
  | tail _ hstep ih =>
    obtain ⟨S, hs⟩ := ih
    obtain ⟨i, d, -, hr⟩ := hstep
    exact ⟨_, hs.trans (shed_of_remove hr)⟩

theorem linked_of_drops (hf : f.Linked) (h : Relation.ReflTransGen DropsDeref f g) : g.Linked := by
  refine hf.changes (Relation.ReflTransGen.mono (fun k l hkl => ?_) f g h)
  obtain ⟨i, d, -, hr⟩ := hkl
  exact .remove hr

theorem exists_reader {d : Deref} (hp : f.Placed) (hnone : f.deadDerefs = [])
    (hb : f.home? i = some b) (hd : f.body? i = some (.deref d)) : ∃ v, f.dest? i = some v ∧
      ((∃ us u, f.uses? v = some us ∧ u ∈ us) ∨ ∃ bs c, f.branches? v = some bs ∧ c ∈ bs) := by
  have halive : f.isDeadDeref i = false := by
    by_contra hdead
    have hmem : i ∈ f.deadDerefs := by
      refine List.mem_filter.mpr ⟨hp.mem_liveInstrs.mpr ⟨b, hb⟩, ?_⟩
      simpa using hdead
    simp [hnone] at hmem
  obtain ⟨x, hx, hxd⟩ := Option.map_eq_some_iff.mp hd
  cases hdest : x.dest with
  | none => simp [isDeadDeref, hx, hxd, hdest, Body.deref?] at halive
  | some v =>
    refine ⟨v, by simp [dest?, hx, hdest], ?_⟩
    have hread : f.isUnread v = false := by
      simpa [isDeadDeref, hx, hxd, hdest, Body.deref?] using halive
    cases hv : f.values.get? v with
    | none => simp [isUnread, hv] at hread
    | some y =>
      have hy : y.uses ≠ [] ∨ y.branchUses ≠ [] := by
        simpa [isUnread, hv, Value.isRead, Classical.or_iff_not_imp_left] using hread
      rcases hy with hy | hy
      · obtain ⟨u, hu⟩ := List.exists_mem_of_ne_nil _ hy
        exact .inl ⟨y.uses, u, by simp [uses?, hv], hu⟩
      · obtain ⟨c, hc⟩ := List.exists_mem_of_ne_nil _ hy
        exact .inr ⟨y.branchUses, c, by simp [branches?, hv], hc⟩

theorem Rooted.irrefl {P : InstrId → Prop} (h : f.Rooted P root v) :
    ¬ Relation.TransGen (fun v parent => f.derefParent v = .ok (some parent)) v v := by
  induction h with
  | var hs _ hb =>
    intro hround
    obtain ⟨parent, hp, -⟩ := Relation.TransGen.head'_iff.mp hround
    obtain ⟨index, mode, type, hd⟩ := derefParent_eq_ok.mp hp
    simp [deref_eq_ok hs hb, Body.deref?] at hd
  | @element v parent index i mode type hs _ hb _ ih =>
    intro hround
    have hparent : f.derefParent v = .ok (some parent) :=
      derefParent_eq_ok.mpr ⟨index, mode, type, deref_eq_ok hs hb⟩
    obtain ⟨p, hp, hrest⟩ := Relation.TransGen.head'_iff.mp hround
    obtain rfl : p = parent := by simpa [hparent] using hp.symm
    exact ih (.tail' hrest hparent)

/-- The values along a chain are all different, so a search that may take as many steps finds the
variable. -/
theorem Rooted.exists_nodup {P : InstrId → Prop} (h : f.Rooted P root v) :
    ∃ l : List ValueId, l.Nodup ∧ (∀ w ∈ l, f.hasValue w ∧ f.Below v w) ∧
      ∀ steps, l.length ≤ steps → f.rootWithin steps v = .ok (some root) := by
  induction h with
  | @var v i _ _ hs _ hb =>
    refine ⟨[v], by simp, by simpa using ⟨hasValue_of_source hs, .refl⟩, fun steps hn => ?_⟩
    obtain ⟨steps, rfl⟩ : ∃ k, steps = k + 1 := ⟨steps - 1, by simp at hn; omega⟩
    simp only [rootWithin, deref_eq_ok hs hb, Body.deref?, ok_bind]
    rfl
  | @element v parent index i mode type hs _ hb hp ih =>
    obtain ⟨l, hnd, hl, hfind⟩ := ih
    have hparent : f.derefParent v = .ok (some parent) :=
      derefParent_eq_ok.mpr ⟨index, mode, type, deref_eq_ok hs hb⟩
    refine ⟨v :: l, List.nodup_cons.mpr ⟨fun hv => ?_, hnd⟩, ?_, fun steps hn => ?_⟩
    · exact hp.irrefl (.tail' (hl v hv).2 hparent)
    · intro w hw
      rcases List.mem_cons.mp hw with rfl | hw
      · exact ⟨hasValue_of_source hs, .refl⟩
      · exact ⟨(hl w hw).1, .head hparent (hl w hw).2⟩
    · obtain ⟨steps, rfl⟩ : ∃ k, steps = k + 1 := ⟨steps - 1, by simp at hn; omega⟩
      simp only [rootWithin, deref_eq_ok hs hb, Body.deref?, ok_bind]
      exact hfind steps (by simpa using hn)

theorem Rooted.derefRoot {P : InstrId → Prop} (h : f.Rooted P root v) :
    f.derefRoot v = .ok (some root) := by
  obtain ⟨l, hnd, hl, hfind⟩ := h.exists_nodup
  have := length_le_of_nodup hnd fun w hw => (hl w hw).1
  exact hfind _ (by omega)

/-- Of derefs that stand, one has none of the others above it. -/
theorem exists_top {S : ValueId → Prop} (hS : ∀ v, S v → f.Standing root v) (hv : S v) :
    ∃ w, S w ∧ ∀ z, S z → f.derefParent z ≠ .ok (some w) := by
  let Above : {v // S v} → {v // S v} → Prop := fun z y =>
    Relation.TransGen (fun v parent => f.derefParent v = .ok (some parent)) z.1 y.1
  have hfinite : Finite {v // S v} := by
    refine Set.Finite.to_subtype (s := {v | S v}) (Set.Finite.subset
      (List.finite_toSet f.values.ids) fun v hv => ?_)
    obtain ⟨x, hx⟩ := hasValue_iff.mp (hasValue_of_isPlace (hS v hv).isPlace)
    exact (Arena.mem_ids _ _).mpr (Arena.get?_eq_some_lt hx)
  have htrans : IsTrans _ Above := ⟨fun _ _ _ => .trans⟩
  have hirrefl : Std.Irrefl Above := ⟨fun v => (hS v.1 v.2).irrefl⟩
  obtain ⟨w, -, hw⟩ := (Finite.wellFounded_of_trans_of_irrefl Above).has_min Set.univ
    ⟨⟨v, hv⟩, trivial⟩
  exact ⟨w.1, w.2, fun z hz hp => hw ⟨z, hz⟩ trivial (.single hp)⟩

end Function

end ShaderSSA
