import ShaderSSA.Proofs.Splitting

/-! Walking over a function and trading instructions on the way. A walk visits every instruction
that was there at the start, so what can be traded away is gone in the end, and of accesses to
several channels there are fewer with each trade. -/

namespace ShaderSSA

/-- An access to any number of channels but one. -/
def Body.isWide : Body → Bool
  | access a => a.width != 1
  | _ => false

theorem Body.isWide_mapSrcs (body : Body) (ρ : Nat → ValueId → ValueId) :
    (body.mapSrcs ρ).isWide = body.isWide := by
  rcases body with _ | _ | ⟨⟨_ | _, _, _⟩⟩ | _ | _ <;> rfl

namespace Function

variable {f g h : Function} {i j : InstrId} {b : BlockId}

/-- Steps that succeed: each visit to an instruction keeps the invariant `I`, takes what was to what
is by `R`, and leaves of `Q` what is still to be visited. -/
structure Walks {σ : Type} (step : Function → InstrId → StateT σ Checked Function)
    (I : σ → Function → Prop) (R : σ → Function → σ → Function → Prop)
    (Q : σ → Function → BlockId → InstrId → Prop) : Prop where
  refl : ∀ s f, I s f → R s f s f
  trans : ∀ s f s' g s'' h, R s f s' g → R s' g s'' h → R s f s'' h
  placed : ∀ s f, I s f → f.Placed
  home : ∀ s f b j, Q s f b j → f.home? j = some b
  step : ∀ s f i b, I s f → f.home? i = some b → ∃ g s', (step f i).run s = .ok (g, s') ∧
    I s' g ∧ R s f s' g ∧ (∀ j d, j ≠ i → f.home? j = some d → g.home? j = some d) ∧
    ∀ d j, Q s' g d j → j ≠ i ∧ Q s f d j

section Walk

variable {σ : Type} {step : Function → InstrId → StateT σ Checked Function}
  {I : σ → Function → Prop} {R : σ → Function → σ → Function → Prop}
  {Q : σ → Function → BlockId → InstrId → Prop} {s : σ}

theorem Walks.instrs (h : Walks step I R Q) {l : List InstrId} (hi : I s f) (hnd : l.Nodup)
    (hl : ∀ i ∈ l, ∃ b, f.home? i = some b) :
    ∃ g s', (l.foldlM step f).run s = .ok (g, s') ∧ I s' g ∧ R s f s' g ∧
      ∀ d j, Q s' g d j → j ∉ l ∧ Q s f d j := by
  induction l generalizing f s with
  | nil => exact ⟨f, s, rfl, hi, h.refl s f hi, fun d j hq => ⟨by simp, hq⟩⟩
  | cons i l ih =>
    obtain ⟨b, hb⟩ := hl i List.mem_cons_self
    obtain ⟨hnot, hnd⟩ := List.nodup_cons.mp hnd
    obtain ⟨g, s₁, hg, hi₁, hr₁, hkeep, hq₁⟩ := h.step s f i b hi hb
    have hlive : ∀ j ∈ l, ∃ b, g.home? j = some b := by
      intro j hj
      obtain ⟨d, hd⟩ := hl j (List.mem_cons_of_mem i hj)
      have hji : j ≠ i := by
        rintro rfl
        exact hnot hj
      exact ⟨d, hkeep j d hji hd⟩
    obtain ⟨k, s₂, hk, hi₂, hr₂, hq₂⟩ := ih hi₁ hnd hlive
    refine ⟨k, s₂, ?_, hi₂, h.trans _ _ _ _ _ _ hr₁ hr₂, fun d j hq => ?_⟩
    · simp only [List.foldlM_cons, StateT.run_bind, hg, ok_bind, hk]
    · obtain ⟨hjl, hqj⟩ := hq₂ d j hq
      obtain ⟨hji, hqj⟩ := hq₁ d j hqj
      exact ⟨by simp [hji, hjl], hqj⟩

theorem Walks.blocks (h : Walks step I R Q) (l : List BlockId) (hi : I s f) :
    ∃ g s',
      (l.foldlM (fun (f : Function) b => (f.blockInstrs b).foldlM step f) f).run s = .ok (g, s') ∧
      I s' g ∧ R s f s' g ∧ ∀ d j, Q s' g d j → d ∉ l ∧ Q s f d j := by
  induction l generalizing f s with
  | nil => exact ⟨f, s, rfl, hi, h.refl s f hi, fun d j hq => ⟨by simp, hq⟩⟩
  | cons b l ih =>
    have hp := h.placed s f hi
    obtain ⟨g, s₁, hg, hi₁, hr₁, hq₁⟩ := h.instrs hi (hp.nodup b)
      fun i hi => ⟨b, hp.mem_iff.mp hi⟩
    obtain ⟨k, s₂, hk, hi₂, hr₂, hq₂⟩ := ih hi₁
    refine ⟨k, s₂, ?_, hi₂, h.trans _ _ _ _ _ _ hr₁ hr₂, fun d j hq => ?_⟩
    · simp only [List.foldlM_cons, StateT.run_bind, hg, ok_bind, hk]
    · obtain ⟨hdl, hqj⟩ := hq₂ d j hq
      obtain ⟨hjb, hqj⟩ := hq₁ d j hqj
      have hdb : d ≠ b := by
        rintro rfl
        exact hjb (hp.mem_iff.mpr (h.home s f d j hqj))
      exact ⟨by simp [hdb, hdl], hqj⟩

theorem Walks.layout (h : Walks step I R Q) (hi : I s f) :
    ∃ g s', (f.layout.foldlM (fun (f : Function) b => (f.blockInstrs b).foldlM step f) f).run s =
      .ok (g, s') ∧ I s' g ∧ R s f s' g ∧ ∀ d j, ¬ Q s' g d j := by
  obtain ⟨g, s', hrun, hi', hr, hq⟩ := h.blocks f.layout hi
  refine ⟨g, s', hrun, hi', hr, fun d j hqj => ?_⟩
  obtain ⟨hnot, hqf⟩ := hq d j hqj
  exact hnot ((h.placed s f hi).mem_layout (h.home s f d j hqf))

end Walk

theorem Placed.mem_liveInstrs (hp : f.Placed) : j ∈ f.liveInstrs ↔ ∃ b, f.home? j = some b := by
  rw [liveInstrs, List.mem_flatMap]
  constructor
  · rintro ⟨b, -, hj⟩
    exact ⟨b, hp.mem_iff.mp hj⟩
  · rintro ⟨b, hb⟩
    exact ⟨b, hp.mem_layout hb, hp.mem_iff.mpr hb⟩

theorem Placed.nodup_liveInstrs (hp : f.Placed) : f.liveInstrs.Nodup := by
  refine List.nodup_flatMap.mpr ⟨fun b _ => hp.nodup b, ?_⟩
  have hids : f.layout.Nodup := List.nodup_range.map fun _ _ h => by simpa using h
  refine hids.imp fun {a b} hab j hja hjb => hab ?_
  have h₁ := hp.mem_iff.mp hja
  have h₂ := hp.mem_iff.mp hjb
  simpa [h₁] using h₂

/-- The accesses to several channels that are not removed. -/
def wideAccesses (f : Function) : List InstrId :=
  f.liveInstrs.filter fun i => (f.body? i).any (·.isWide)

theorem Placed.mem_wideAccesses (hp : f.Placed) :
    j ∈ f.wideAccesses ↔ ∃ b body, f.home? j = some b ∧ f.body? j = some body ∧ body.isWide := by
  rw [wideAccesses, List.mem_filter, hp.mem_liveInstrs]
  cases f.body? j <;> simp

/-- A trade for accesses to single channels leaves one access to several channels less. -/
theorem Traded.wideAccesses_lt {New : Body → Prop} (h : Traded New f i g) (hf : f.Placed)
    (hg : g.Placed) (hnew : ∀ body, New body → body.isWide = false) {body : Body}
    (hi : f.home? i = some b) (hbody : f.body? i = some body) (hw : body.isWide) :
    g.wideAccesses.length < f.wideAccesses.length := by
  have hmem : i ∈ f.wideAccesses := hf.mem_wideAccesses.mpr ⟨b, body, hi, hbody, hw⟩
  have hsub : i :: g.wideAccesses ⊆ f.wideAccesses := by
    intro j hj
    rcases List.mem_cons.mp hj with rfl | hj
    · exact hmem
    · obtain ⟨d, body', hd, hbody', hw'⟩ := hg.mem_wideAccesses.mp hj
      rcases h.only j d body' hd hbody' with ⟨hji, hold⟩ | hn
      · obtain ⟨x, hx, -⟩ := home?_eq_some.mp hold
        have hfb : f.body? j = some x.body := by simp [body?, hx]
        obtain ⟨-, -, ρ, hρ, -⟩ := h.old j d x.body hji hold hfb
        obtain rfl : x.body.mapSrcs ρ = body' := by simpa [hρ] using hbody'
        rw [Body.isWide_mapSrcs] at hw'
        exact hf.mem_wideAccesses.mpr ⟨d, x.body, hold, hfb, hw'⟩
      · simp [hnew body' hn] at hw'
  have hnot : i ∉ g.wideAccesses := by
    intro hm
    obtain ⟨d, _, hd, -⟩ := hg.mem_wideAccesses.mp hm
    simp [h.gone] at hd
  have hnd : (i :: g.wideAccesses).Nodup :=
    List.nodup_cons.mpr ⟨hnot, hg.nodup_liveInstrs.filter _⟩
  simpa using (hnd.subperm hsub).length_le

end Function

end ShaderSSA
