import ShaderSSA.Proofs.Walking

/-! Rewriting that leaves places alone: derefs and the accesses through them stay, and each reads
the place that it did. -/

namespace ShaderSSA.Function

variable {f g k : Function} {v : ValueId} {i : InstrId}

/-- `g` has the derefs and deref accesses of `f`, with the same places. -/
structure SamePlaces (f g : Function) : Prop where
  kept : ∀ j b body, f.home? j = some b → f.body? j = some body → body.isPlaceSlot 0 →
    g.home? j = some b ∧ (∀ w, f.source? w = some j → g.source? w = some j) ∧
      ∃ ρ, g.body? j = some (body.mapSrcs ρ) ∧ ∀ w, f.Live w → f.isPlace w → ρ 0 w = w
  only : ∀ j b body, g.home? j = some b → g.body? j = some body → body.isPlaceSlot 0 →
    ∃ body', f.home? j = some b ∧ f.body? j = some body' ∧ body'.isPlaceSlot 0

theorem SamePlaces.refl (f : Function) : f.SamePlaces f :=
  ⟨fun j b body hj hb _ => ⟨hj, fun _ h => h, fun _ w => w, by rw [Body.mapSrcs_id, hb],
    fun _ _ _ => rfl⟩, fun j b body hj hb hp => ⟨body, hj, hb, hp⟩⟩

theorem exists_deref_of_isPlace (hv : f.Live v) (hp : f.isPlace v) :
    ∃ j b d, f.source? v = some j ∧ f.home? j = some b ∧ f.body? j = some (.deref d) := by
  obtain ⟨j, b, hs, hj⟩ := hv
  obtain ⟨x, hx, -⟩ := home?_eq_some.mp hj
  have hb : f.body? j = some x.body := by simp [body?, hx]
  rw [isPlace_eq hs hb] at hp
  cases hd : x.body with
  | deref d => exact ⟨j, b, d, hs, hj, by rw [hb, hd]⟩
  | _ => simp [hd, Body.deref?] at hp

theorem SamePlaces.place (h : f.SamePlaces g) (hv : f.Live v) (hp : f.isPlace v) :
    g.Live v ∧ g.isPlace v := by
  obtain ⟨j, b, d, hs, hj, hb⟩ := exists_deref_of_isPlace hv hp
  obtain ⟨hj', hs', ρ, hρ, -⟩ := h.kept j b _ hj hb rfl
  refine ⟨⟨j, b, hs' v hs, hj'⟩, ?_⟩
  rw [isPlace_eq (hs' v hs) hρ, Body.deref?_mapSrcs]
  rfl

theorem SamePlaces.trans (h : f.SamePlaces g) (h' : g.SamePlaces k) : f.SamePlaces k := by
  refine ⟨fun j b body hj hb hp => ?_, fun j b body hj hb hp => ?_⟩
  · obtain ⟨hj₁, hs₁, ρ₁, hρ₁, hfix₁⟩ := h.kept j b body hj hb hp
    obtain ⟨hj₂, hs₂, ρ₂, hρ₂, hfix₂⟩ := h'.kept j b _ hj₁ hρ₁ (by rwa [Body.isPlaceSlot_mapSrcs])
    refine ⟨hj₂, fun w hw => hs₂ w (hs₁ w hw), fun s w => ρ₂ s (ρ₁ s w), ?_, fun w hw hpw => ?_⟩
    · rw [hρ₂, Body.mapSrcs_mapSrcs]
    · obtain ⟨hw', hpw'⟩ := h.place hw hpw
      simp only [hfix₁ w hw hpw, hfix₂ w hw' hpw']
  · obtain ⟨body₁, hj₁, hb₁, hp₁⟩ := h'.only j b body hj hb hp
    exact h.only j b body₁ hj₁ hb₁ hp₁

theorem SamePlaces.chain (h : f.SamePlaces g) (hc : f.Closed) (hv : f.Live v) {root : VarId}
    {x : Variable} {n : Nat} {t : VarType} (hchain : f.Chain root x n v t) :
    g.Chain root x n v t := by
  refine hchain.kept hc hv fun j b d w hj hd hs => ?_
  obtain ⟨-, hs', hρ⟩ := h.kept j b _ hj hd rfl
  exact ⟨hs' w hs, hρ⟩

theorem Traded.samePlaces {New : Body → Prop} (h : Traded New f i g) {b : BlockId} {body : Body}
    (hi : f.home? i = some b) (hbody : f.body? i = some body) (hp : body.isPlaceSlot 0 = false)
    (hnew : ∀ body, New body → body.isPlaceSlot 0 = false) : f.SamePlaces g := by
  refine ⟨fun j d body' hj hb hp' => ?_, fun j d body' hj hb hp' => ?_⟩
  · have hji : j ≠ i := by
      rintro rfl
      obtain rfl : body = body' := by simpa [hbody] using hb
      simp [hp] at hp'
    obtain ⟨hj', -, ρ, hρ, hfix⟩ := h.old j d body' hji hj hb
    exact ⟨hj', fun w hs => h.source w j hs, ρ, hρ, fun w _ hw => hfix 0 w hw⟩
  · rcases h.only j d body' hj hb with ⟨hji, hold⟩ | hn
    · obtain ⟨x, hx, -⟩ := home?_eq_some.mp hold
      have hfb : f.body? j = some x.body := by simp [body?, hx]
      obtain ⟨-, -, ρ, hρ, -⟩ := h.old j d x.body hji hold hfb
      obtain rfl : x.body.mapSrcs ρ = body' := by simpa [hρ] using hb
      exact ⟨x.body, hold, hfb, by rwa [Body.isPlaceSlot_mapSrcs] at hp'⟩
    · simp [hnew body' hn] at hp'

theorem Keeps.samePlaces (h : f.Keeps g) (hf : f.Defined) (hg : g.Defined) : f.SamePlaces g := by
  have halu : ∀ body : Body, body.isPlaceSlot 0 → body.alu? = none := by
    intro body hp
    cases body with
    | alu a => simp [Body.isPlaceSlot] at hp
    | _ => rfl
  refine ⟨fun j b body hj hb hp => ?_, fun j b body hj hb hp => ?_⟩
  · obtain ⟨hj', hd, ρ, hρ, hfollow⟩ := h.other j b body hj hb (halu body hp)
    refine ⟨hj', fun w hs => ?_, fun s w => if f.isPlace w then w else ρ s w, ?_,
      fun w _ hw => if_pos hw⟩
    · rw [← hg.iff, hd]
      exact (hf.iff j w).mpr hs
    · rw [hρ]
      refine congrArg some (Body.mapSrcs_congr fun s w hw => ?_)
      split_ifs with hpw
      · rcases (hfollow s w hw).computed with hsame | ⟨⟨d, a, hs, hbd⟩, -⟩
        · exact hsame
        · simp [isPlace_eq hs hbd, Body.deref?] at hpw
      · rfl
  · obtain ⟨body', hj', hb', hnone⟩ := h.only j b body hj hb (halu body hp)
    obtain ⟨-, -, ρ, hρ, -⟩ := h.other j b body' hj' hb' hnone
    obtain rfl : body'.mapSrcs ρ = body := by simpa [hρ] using hb
    exact ⟨body', hj', hb', by rwa [Body.isPlaceSlot_mapSrcs] at hp⟩

end ShaderSSA.Function
