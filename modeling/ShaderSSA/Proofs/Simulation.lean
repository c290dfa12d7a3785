import ShaderSSA.Proofs.Execution

/-! One function in place of another. The second may spread an instruction of the first over
several of its own, or leave it out; a relation between what the two runs have computed is kept
along, and states that no run arrives at need not be looked at. -/

namespace ShaderSSA

namespace Function

variable [FloatOps]

/-- The states of runs of `f`, each with the block it is in and the instructions done there. -/
inductive Arrives (f : Function) (vars : Variables) (io : IoState) :
    BlockId → List InstrId → Env → Prop
  | start : Arrives f vars io entryBlock [] (.start io)
  | step {b done i rest e e'} : Arrives f vars io b done e →
      f.blockInstrs b = done ++ i :: rest → f.step? vars i e = some e' →
      Arrives f vars io b (done ++ [i]) e'
  | goes {b e t c} : Arrives f vars io b (f.blockInstrs b) e → f.terminator? b = some t →
      e.next t = some (some c) → Arrives f vars io c [] e

/-- Whatever a run of the first leaves outside, some run of the second leaves too. -/
def Refines (f : Function) (vars : Variables) (f' : Function) (vars' : Variables) : Prop :=
  ∀ io io', f.Runs vars entryBlock (.start io) io' → f'.Runs vars' entryBlock (.start io) io'

theorem Refines.refl (f : Function) (vars : Variables) : Refines f vars f vars :=
  fun _ _ h => h

theorem Refines.trans {f g k : Function} {vars vars' vars'' : Variables}
    (h : Refines f vars g vars') (h' : Refines g vars' k vars'') : Refines f vars k vars'' :=
  fun io io' hr => h' io io' (h io io' hr)

/-- What a relation between runs has to satisfy, when `expand` says what becomes of each
instruction. -/
structure Simulates (f : Function) (vars : Variables) (f' : Function) (vars' : Variables)
    (expand : InstrId → List InstrId) (R : Env → Env → Prop) : Prop where
  start : ∀ io, R (.start io) (.start io)
  blocks : ∀ b, f'.blockInstrs b = (f.blockInstrs b).flatMap expand
  step : ∀ io b done i rest e e₁ e', Arrives f vars io b done e → R e e' →
    f.blockInstrs b = done ++ i :: rest → f.step? vars i e = some e₁ →
    ∃ e₁', f'.exec? vars' (expand i) e' = some e₁' ∧ R e₁ e₁'
  leave : ∀ io b t e e' n, Arrives f vars io b (f.blockInstrs b) e → R e e' →
    f.terminator? b = some t → e.next t = some n →
    ∃ t', f'.terminator? b = some t' ∧ e'.next t' = some n
  io : ∀ e e', R e e' → e'.io = e.io

variable {f f' : Function} {vars vars' : Variables} {expand : InstrId → List InstrId}
  {R : Env → Env → Prop}

theorem exec?_append (f : Function) (vars : Variables) (is js : List InstrId) (e : Env) :
    f.exec? vars (is ++ js) e = (f.exec? vars is e).bind (f.exec? vars js) := by
  simp only [exec?, List.foldlM_append]
  rfl

theorem exec?_congr {is : List InstrId} {e : Env} (h : ∀ n ∈ is, f'.body? n = f.body? n ∧
      f'.dest? n = f.dest? n ∧ f'.destShape? n = f.destShape? n) :
    f'.exec? vars is e = f.exec? vars is e := by
  induction is generalizing e with
  | nil => rfl
  | cons n is ih =>
    obtain ⟨hb, hd, hs⟩ := h n List.mem_cons_self
    have hstep : f'.step? vars n e = f.step? vars n e := by simp only [step?, hb, hd, hs]
    have hrest : f'.exec? vars is = f.exec? vars is := by
      funext e'
      exact ih fun m hm => h m (List.mem_cons_of_mem n hm)
    have hcons : ∀ k : Function,
        k.exec? vars (n :: is) e = (k.step? vars n e).bind (k.exec? vars is) := fun _ => rfl
    rw [hcons, hcons, hstep, hrest]

theorem Simulates.exec (h : Simulates f vars f' vars' expand R) {io : IoState} {b : BlockId}
    {done rest : List InstrId} {e e₁ e' : Env} (ha : Arrives f vars io b done e) (hr : R e e')
    (hb : f.blockInstrs b = done ++ rest) (he : f.exec? vars rest e = some e₁) :
    ∃ e₁', f'.exec? vars' (rest.flatMap expand) e' = some e₁' ∧ R e₁ e₁' ∧
      Arrives f vars io b (f.blockInstrs b) e₁ := by
  induction rest generalizing done e e' with
  | nil =>
    obtain rfl : e = e₁ := by simpa [exec?] using he
    exact ⟨e', rfl, hr, by simpa [hb] using ha⟩
  | cons i rest ih =>
    have hcons : f.exec? vars (i :: rest) e = (f.step? vars i e).bind (f.exec? vars rest) := rfl
    rw [hcons, Option.bind_eq_some_iff] at he
    obtain ⟨e₂, hi, he⟩ := he
    obtain ⟨e₂', hi', hr'⟩ := h.step io b done i rest e e₂ e' ha hr hb hi
    obtain ⟨e₁', he', hr₁, ha₁⟩ := ih (ha.step hb hi) hr' (by simpa using hb) he
    exact ⟨e₁', by rw [List.flatMap_cons, exec?_append, hi', Option.bind_some, he'], hr₁, ha₁⟩

theorem Simulates.runs (h : Simulates f vars f' vars' expand R) {io io' : IoState} {b : BlockId}
    {e e' : Env} (hrun : f.Runs vars b e io') (ha : Arrives f vars io b [] e) (hr : R e e') :
    f'.Runs vars' b e' io' := by
  induction hrun generalizing e' with
  | @ret b e e₁ t ht he hn =>
    obtain ⟨e₁', he', hr₁, ha₁⟩ := h.exec ha hr (by simp) he
    obtain ⟨t', ht', hn'⟩ := h.leave io b t e₁ e₁' none ha₁ hr₁ ht hn
    rw [← h.blocks] at he'
    rw [← h.io e₁ e₁' hr₁]
    exact .ret ht' he' hn'
  | @goes b e e₁ t c io' ht he hn hc ih =>
    obtain ⟨e₁', he', hr₁, ha₁⟩ := h.exec ha hr (by simp) he
    obtain ⟨t', ht', hn'⟩ := h.leave io b t e₁ e₁' (some c) ha₁ hr₁ ht hn
    rw [← h.blocks] at he'
    exact .goes ht' he' hn' (ih (ha₁.goes ht hn) hr₁)

/-- A simulation carries every run over. -/
theorem Simulates.refines (h : Simulates f vars f' vars' expand R) : Refines f vars f' vars' :=
  fun io _ hrun => h.runs hrun .start (h.start io)

end Function

theorem Shader.run_of_refines [FloatOps] {s s' : Shader} (hf : ∀ f ∈ s.functions, f.Defined)
    (h : List.Forall₂ (fun f g => g.Defined ∧ Function.Refines f s.vars g s'.vars) s.functions
      s'.functions) {io io' : IoState} {limit : Nat}
    (hrun : s.run io limit = some ⟨io', none⟩) :
    ∃ limit', s'.run io limit' = some ⟨io', none⟩ := by
  obtain ⟨f, fs, hs, hmean⟩ := Shader.run_ok hf hrun
  rw [hs] at h
  obtain ⟨g, gs, ⟨hg, hr⟩, -, hs'⟩ := List.forall₂_cons_left_iff.mp h
  exact Shader.run_of_meaning hs' hg (hr io io' hmean)

end ShaderSSA
