import ShaderSSA.Proofs.Replacing

/-! What arithmetic rewriting leaves alone. Instructions of other kinds stay where they are, and of
their operands only computed ones give way, to others that are computed and have the same shape. -/

namespace ShaderSSA.Function

variable {f g k : Function} {v w : ValueId}

def Arithmetic (f : Function) (v : ValueId) : Prop :=
  ∃ d a, f.source? v = some d ∧ f.body? d = some (.alu a)

/-- What was `v` in `f` may be `w` in `g`. -/
structure Follows (f g : Function) (v w : ValueId) : Prop where
  shape : ∃ s, f.shape? v = some s ∧ g.shape? w = some s
  computed : w = v ∨ f.Arithmetic v ∧ g.Arithmetic w

/-- Of everything but arithmetic, `g` has what `f` has. -/
structure Keeps (f g : Function) : Prop where
  shape : ∀ v s, f.shape? v = some s → g.shape? v = some s
  arithmetic : ∀ v s, f.shape? v = some s → (g.Arithmetic v ↔ f.Arithmetic v)
  other : ∀ j b body, f.home? j = some b → f.body? j = some body → body.alu? = none →
    g.home? j = some b ∧ g.dest? j = f.dest? j ∧ ∃ ρ, g.body? j = some (body.mapSrcs ρ) ∧
      ∀ s v, body.srcs[s]? = some v → f.Follows g v (ρ s v)
  only : ∀ j b body, g.home? j = some b → g.body? j = some body → body.alu? = none →
    ∃ body', f.home? j = some b ∧ f.body? j = some body' ∧ body'.alu? = none

theorem Follows.refl (hv : f.hasValue v) : f.Follows f v v := by
  obtain ⟨x, hx⟩ := hasValue_iff.mp hv
  exact ⟨⟨x.shape, by simp [shape?, hx], by simp [shape?, hx]⟩, .inl rfl⟩

theorem Follows.trans {x : ValueId} (h : f.Follows g v w) (h' : g.Follows k w x)
    (hg : f.Keeps g) (hk : g.Keeps k) : f.Follows k v x := by
  obtain ⟨s, hv, hw⟩ := h.shape
  obtain ⟨t, hw', hx⟩ := h'.shape
  obtain rfl : s = t := Option.some.inj (hw.symm.trans hw')
  refine ⟨⟨s, hv, hx⟩, ?_⟩
  rcases h.computed with rfl | ⟨hva, hwa⟩
  · rcases h'.computed with he | ⟨hwa, hxa⟩
    · exact .inl he
    · exact .inr ⟨(hg.arithmetic w s hv).mp hwa, hxa⟩
  · rcases h'.computed with rfl | ⟨-, hxa⟩
    · exact .inr ⟨hva, (hk.arithmetic x s hw).mpr hwa⟩
    · exact .inr ⟨hva, hxa⟩

theorem Keeps.trans (h : f.Keeps g) (h' : g.Keeps k) : f.Keeps k where
  shape v s hv := h'.shape v s (h.shape v s hv)
  arithmetic v s hv := (h'.arithmetic v s (h.shape v s hv)).trans (h.arithmetic v s hv)
  other j b body hj hbody halu := by
    obtain ⟨hj₁, hd₁, ρ, hbody₁, hρ⟩ := h.other j b body hj hbody halu
    have halu₁ : (body.mapSrcs ρ).alu? = none := (Body.alu?_mapSrcs_of_none halu).trans halu
    obtain ⟨hj₂, hd₂, σ, hbody₂, hσ⟩ := h'.other j b _ hj₁ hbody₁ halu₁
    refine ⟨hj₂, hd₂.trans hd₁, fun s v => σ s (ρ s v), ?_, fun s v hv => ?_⟩
    · rw [hbody₂, Body.mapSrcs_mapSrcs]
    · refine (hρ s v hv).trans (hσ s (ρ s v) ?_) h h'
      rw [Body.getElem?_srcs_mapSrcs, hv, Option.map_some]
  only j b body hj hbody halu := by
    obtain ⟨body₁, hj₁, hbody₁, halu₁⟩ := h'.only j b body hj hbody halu
    exact h.only j b body₁ hj₁ hbody₁ halu₁

theorem Keeps.of_same (hf : f.Sourced) (hshape : ∀ v s, f.shape? v = some s → g.shape? v = some s)
    (harith : ∀ v s, f.shape? v = some s → (g.Arithmetic v ↔ f.Arithmetic v))
    (hother : ∀ j b body, f.home? j = some b → f.body? j = some body → body.alu? = none →
      g.home? j = some b ∧ g.dest? j = f.dest? j ∧ g.body? j = some body)
    (honly : ∀ j b body, g.home? j = some b → g.body? j = some body → body.alu? = none →
      f.home? j = some b ∧ f.body? j = some body) : f.Keeps g where
  shape := hshape
  arithmetic := harith
  other j b body hj hbody halu := by
    obtain ⟨hj', hd', hbody'⟩ := hother j b body hj hbody halu
    refine ⟨hj', hd', fun _ v => v, by rw [hbody', Body.mapSrcs_id], fun s v hv => ?_⟩
    have hvs : f.srcs? j = some body.srcs := by rw [srcs?_eq_map, hbody, Option.map_some]
    obtain ⟨x, hx⟩ := hasValue_iff.mp (hf.known j _ hvs v (List.mem_of_getElem? hv))
    have hx' : f.shape? v = some x.shape := by simp [shape?, hx]
    exact ⟨⟨x.shape, hx', hshape v _ hx'⟩, .inl rfl⟩
  only j b body hj hbody halu := by
    obtain ⟨hj', hbody'⟩ := honly j b body hj hbody halu
    exact ⟨body, hj', hbody', halu⟩

theorem Keeps.refl (hf : f.Sourced) : f.Keeps f :=
  .of_same hf (fun _ _ hv => hv) (fun _ _ _ => Iff.rfl) (fun _ _ _ hj hbody _ => ⟨hj, rfl, hbody⟩)
    fun _ _ _ hj hbody _ => ⟨hj, hbody⟩

end ShaderSSA.Function
