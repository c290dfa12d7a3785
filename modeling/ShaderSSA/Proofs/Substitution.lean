import ShaderSSA.Proofs.Growth

/-! Other instructions in place of one. When the newcomers do what the old instruction did, under
a new name for its result, every run goes through as before. -/

namespace ShaderSSA.Function

variable {f g h : Function} {i : InstrId} {news : List InstrId} {vars vars' : Variables}

theorem exec?_untouched [FloatOps] {is : List InstrId} {e e₁ : Env} {w : ValueId}
    (he : f.exec? vars is e = some e₁) (hw : ∀ n ∈ is, f.dest? n ≠ some w) :
    e₁.values w = e.values w ∧ e₁.places w = e.places w := by
  induction is generalizing e with
  | nil =>
    obtain rfl : e = e₁ := by simpa [exec?] using he
    exact ⟨rfl, rfl⟩
  | cons n is ih =>
    have hcons : f.exec? vars (n :: is) e = (f.step? vars n e).bind (f.exec? vars is) := rfl
    rw [hcons, Option.bind_eq_some_iff] at he
    obtain ⟨e₂, hn, he⟩ := he
    have hrest := ih he fun m hm => hw m (List.mem_cons_of_mem n hm)
    have hdest := hw n List.mem_cons_self
    simp only [step?, Option.bind_eq_some_iff, Option.map_eq_some_iff] at hn
    obtain ⟨b, -, r, -, rfl⟩ := hn
    have hone : (e.apply (f.dest? n) r).values w = e.values w ∧
        (e.apply (f.dest? n) r).places w = e.places w := by
      cases hd : f.dest? n with
      | none => cases r <;> exact ⟨rfl, rfl⟩
      | some d =>
        have hne : w ≠ d := by
          rintro rfl
          exact hdest hd
        cases r <;> simp [Env.apply, Env.define, Env.definePlace, hne]
    exact ⟨hrest.1.trans hone.1, hrest.2.trans hone.2⟩

/-- An instruction that needs its own value never gets to define it. -/
theorem undefined_of_stuck [FloatOps] {io : IoState} {v : ValueId} (hf : f.Defined)
    (hd : f.dest? i = some v) (hstuck : ∀ e, e.values v = none → f.step? vars i e = none)
    {b : BlockId} {done : List InstrId} {e : Env} (ha : Arrives f vars io b done e) :
    e.values v = none := by
  induction ha with
  | start => rfl
  | @step b done j rest e e' ha hb hj ih =>
    have hne : f.dest? j ≠ some v := by
      intro hjd
      have hji : j = i := by
        have h₁ := (hf.iff j v).mp hjd
        have h₂ := (hf.iff i v).mp hd
        simpa [h₁] using h₂
      rw [hji, hstuck e ih] at hj
      simp at hj
    have hone : f.exec? vars [j] e = some e' := by simp [exec?, hj]
    rw [(exec?_untouched hone (by simpa using hne)).1, ih]
  | goes ha ht hn ih => exact ih

theorem Grown.expand_replaced {ρ : ValueId → ValueId} (hg : Grown f i news g)
    (hr : Replaced g i ρ h) (hi : i ∉ news) (b : BlockId) :
    h.blockInstrs b = (f.blockInstrs b).flatMap fun j => if j = i then news else [j] := by
  rw [hr.blocks, hg.blocks, List.filter_flatMap]
  congr 1
  funext j
  by_cases hj : j = i
  · have hall : ∀ n ∈ news, (n != i) = true := by
      intro n hn
      have hne : n ≠ i := fun he => hi (he ▸ hn)
      simpa using hne
    simp [hj, List.filter_eq_self.mpr hall]
  · simp [hj]

theorem next_rename {e e' : Env} {ρ : ValueId → ValueId} {t : Terminator} {n : Option BlockId}
    (hc : ∀ c, t.condition? = some c → e'.values (ρ c) = e.values c) (hn : e.next t = some n) :
    e'.next (t.rename ρ) = some n := by
  cases t with
  | jump c => exact hn
  | ret => exact hn
  | branch c yes no =>
    simp only [Env.next, Terminator.rename, hc c rfl] at hn ⊢
    exact hn

theorem Refines.extends [FloatOps] (f : Function) (hx : vars.Extends vars') :
    Refines f vars f vars' := by
  suffices hsim : Simulates f vars f vars' (fun j => [j])
      fun e e' => e.Tracks (fun v => v) (fun _ => True) e' from hsim.refines
  refine ⟨fun io => .start io, fun b => (List.flatMap_singleton' _).symm, ?_, ?_,
    fun _ _ ht => ht.io⟩
  · intro io b done i rest e e₁ e' _ ht _ hs
    have hbody : f.body? i = (f.body? i).map fun b => b.mapSrcs fun _ v => v := by
      simp [Body.mapSrcs_id]
    obtain ⟨e₁', he', ht'⟩ := step?_tracks ht hx hbody rfl rfl (fun _ _ _ _ => trivial)
      (fun _ _ _ _ => Iff.rfl) hs
    exact ⟨e₁', by simp [exec?, he'], ht'⟩
  · intro io b t e e' n _ ht hterm hn
    refine ⟨t, hterm, ?_⟩
    have hn' : e'.next (t.rename fun v => v) = some n :=
      next_rename (fun c _ => ht.values c trivial) hn
    rwa [Terminator.rename_id] at hn'

/-- Replacing `i` by instructions that do the same, up to the name of the result. -/
theorem refines_of_replaced [FloatOps] {ρ : ValueId → ValueId} {K : ValueId → Prop} {b : BlockId}
    (hf : f.Tidy) (hi : f.home? i = some b) (hx' : vars.Extends vars') (hg : Grown f i news g)
    (hr : Replaced g i ρ h) (hread : ∀ u v, u.instr ≠ i → f.reads? u = some v → K v)
    (hcond : ∀ c v, f.condition? c = some v → K v)
    (hρ : ∀ v, K v → ∀ j d, j ≠ i → f.dest? j = some d → (ρ v = d ↔ v = d))
    (hsem : ∀ io done rest e e₁ e', Arrives f vars io b done e →
      f.blockInstrs b = done ++ i :: rest → f.step? vars i e = some e₁ → e.Tracks ρ K e' →
      (∀ n ∈ news, ∀ body, g.body? n = some body → ∀ v ∈ body.srcs, ρ v = v) ∧
      ∃ e₁', g.exec? vars' news e' = some e₁' ∧ e₁.Tracks ρ K e₁') :
    Refines f vars h vars' := by
  have hinstr : ∀ j c, f.home? j = some c → ∃ x, f.instrs.get? j = some x := by
    intro j c hj
    obtain ⟨x, hx, -⟩ := home?_eq_some.mp hj
    exact ⟨x, hx⟩
  have hnot : i ∉ news := by
    intro hm
    obtain ⟨x, hx⟩ := hinstr i b hi
    simpa [hx] using (hg.fresh i hm).1
  have hshape : ∀ j, h.destShape? j = g.destShape? j := by
    intro j
    simp only [destShape?, hr.dest, hr.shape]
  suffices hsim : Simulates f vars h vars' (fun j => if j = i then news else [j])
      fun e e' => e.Tracks ρ K e' from hsim.refines
  refine ⟨?_, ?_, ?_, ?_, ?_⟩
  · exact fun io => .start io
  · exact fun c => hg.expand_replaced hr hnot c
  · intro io c done j rest e e₁ e' ha ht hb hj
    have hhome : f.home? j = some c := hf.linked.placed.mem_iff.mp (by simp [hb])
    obtain ⟨x, hx⟩ := hinstr j c hhome
    by_cases hji : j = i
    · subst hji
      obtain rfl : c = b := by simpa [hhome] using hi
      obtain ⟨hfix, e₁', he', ht'⟩ := hsem io done rest e e₁ e' ha hb hj ht
      refine ⟨e₁', ?_, ht'⟩
      rw [if_pos rfl, exec?_congr fun n hn => ?_, he']
      obtain ⟨-, c', hc'⟩ := hg.fresh n hn
      refine ⟨?_, by rw [hr.dest], hshape n⟩
      rw [hr.body n c' hc']
      cases hbody : g.body? n with
      | none => rfl
      | some body =>
        have hsame : body.mapSrcs (fun _ => ρ) = body := by
          conv_rhs => rw [← body.mapSrcs_id]
          exact Body.mapSrcs_congr fun s v hv => hfix n hn body hbody v (List.mem_of_getElem? hv)
        rw [Option.map_some, hsame]
    · rw [if_neg hji]
      have hbody : h.body? j = (f.body? j).map fun b => b.mapSrcs fun _ => ρ := by
        rw [hr.body j c (by rw [hg.home hx, hhome]), hg.body hx]
      have hdest : h.dest? j = f.dest? j := by rw [hr.dest, hg.destOld hx]
      have hds : h.destShape? j = f.destShape? j := by
        rw [hshape, hg.destShape hf.linked.defined hx]
      have hk : ∀ vs, f.srcs? j = some vs → ∀ v ∈ vs, K v := by
        intro vs hvs v hv
        obtain ⟨s, hs⟩ := List.getElem?_of_mem hv
        exact hread ⟨j, s⟩ v hji (by simp [reads?, hhome, hvs, hs])
      obtain ⟨e₁', he', ht'⟩ := step?_tracks ht hx' hbody hdest hds hk
        (fun d hd v hv => hρ v hv j d hji hd) hj
      exact ⟨e₁', by simp [exec?, he'], ht'⟩
  · intro io c t e e' n ha ht hterm hn
    refine ⟨t.rename ρ, ?_, ?_⟩
    · rw [hr.terminator, hg.terminator, hterm, Option.map_some]
    · refine next_rename (fun v hv => ht.values v ?_) hn
      exact hcond c v (by simp [condition?, hterm, hv])
  · exact fun e e' ht => ht.io

end ShaderSSA.Function
