import ShaderSSA.Proofs.Rewriting
import ShaderSSA.Proofs.Terms

/-! Trading one instruction for those built in front of it: a load gives way to the value that was
put together, a store to what was stored piece by piece. -/

namespace ShaderSSA

theorem mapM_run {σ α β : Type} {m : α → StateT σ Checked β} {R : α → β → Prop} {l : List α}
    (h : ∀ a ∈ l, ∀ s, ∃ b s', (m a).run s = .ok (b, s') ∧ R a b) (s : σ) :
    ∃ l' s', (l.mapM m).run s = .ok (l', s') ∧ List.Forall₂ R l l' := by
  induction l generalizing s with
  | nil => exact ⟨[], s, rfl, .nil⟩
  | cons a l ih =>
    obtain ⟨b, s₁, hb, hr⟩ := h a List.mem_cons_self s
    obtain ⟨l', s₂, hl, hrs⟩ := ih (fun c hc => h c (List.mem_cons_of_mem a hc)) s₁
    refine ⟨b :: l', s₂, ?_, .cons hr hrs⟩
    simp only [List.mapM_cons, StateT.run_bind, hb, hl, ok_bind]
    rfl

theorem exists_of_forall₂ {α β : Type} {R : α → β → Prop} {l : List α} {l' : List β}
    (h : List.Forall₂ R l l') {b : β} (hb : b ∈ l') : ∃ a ∈ l, R a b := by
  induction h with
  | nil => simp at hb
  | cons hr _ ih =>
    rcases List.mem_cons.mp hb with rfl | hb
    · exact ⟨_, List.mem_cons_self, hr⟩
    · obtain ⟨a, ha, hab⟩ := ih hb
      exact ⟨a, List.mem_cons_of_mem _ ha, hab⟩

/-- Instructions that meet the terms, look like `New` and read, of what there was in `f`, only
what `Old` allows. -/
def Terms.emitted (T : Terms) (vars : Variables) (f : Function) (New : Body → Prop)
    (Old : ValueId → Prop) : Trait where
  holds g body dest := body.Meets T vars g dest ∧ New body ∧ ∀ v ∈ body.srcs, f.hasValue v → Old v
  grows hf hg hlive h := ⟨h.1.grows hf.linked.defined hg hlive, h.2⟩

namespace Function

variable {P : Trait} {T : Terms} {f g h : Function} {i : InstrId} {news : List InstrId}
  {b : BlockId} {vars vars' : Variables} {ρ : ValueId → ValueId}

theorem stands_before (hf : f.Placed) (hi : f.home? i = some b) : f.Stands (.before i) i := by
  obtain ⟨before, after, hb⟩ := List.append_of_mem (hf.mem_iff.mpr hi)
  exact ⟨b, before, after, hb, position_of_split hf hb⟩

theorem Grown.flow (hg : f.Grown i news g) (b : BlockId) :
    g.blocks.successors b = f.blocks.successors b := by
  rw [successors_eq, successors_eq, hg.terminator]

theorem Grown.condition (hg : f.Grown i news g) (b : BlockId) :
    g.condition? b = f.condition? b := by
  simp only [condition?, hg.terminator]

theorem Grown.reads (hg : f.Grown i news g) {u : Use} {d : BlockId}
    (hu : f.home? u.instr = some d) : g.reads? u = f.reads? u := by
  obtain ⟨x, hx, -⟩ := home?_eq_some.mp hu
  simp only [reads?, hg.home hx, srcs?, hx, hg.old _ x hx]

theorem Emits.closed (he : Emits P f i news g) (hf : f.Placed) (hc : f.Closed) : g.Closed := by
  refine ⟨fun u v hu => ?_, fun d v hv => ?_⟩
  · obtain ⟨d, body, hhome, hbody, hv⟩ := reads?_iff.mp hu
    rcases he.grown.home_cases hf he.tidy.linked.placed hhome with hold | hnew
    · rw [he.grown.reads hold] at hu
      exact he.grown.live (hc.source u v hu)
    · obtain ⟨_, body', -, hbody', -, hlive⟩ := he.mem_new hnew
      obtain rfl : body = body' := by simpa [hbody] using hbody'
      exact hlive v (List.mem_of_getElem? hv)
  · rw [he.grown.condition] at hv
    exact he.grown.live (hc.condition d v hv)

/-- Everything that reads a value that serves as well meets the terms. -/
theorem Emits.sound (he : Emits P f i news g) (hf : f.Sound T vars) (hx : vars.Extends vars')
    (hP : ∀ body dest, P.holds g body dest → body.Meets T vars' g dest) (hr : Replaced g i ρ h)
    (ht : h.Tidy) (hc : h.Closed) (hρ : ∀ v, g.Live v → g.Serves T v (ρ v))
    (hdom : T.ordered → h.DominanceRespecting) : h.Sound T vars' := by
  have hcg := he.closed hf.tidy.linked.placed hf.closed
  refine ⟨ht, hc, fun j d body hj hbody => ?_, fun hT d w hw => ?_, hdom⟩
  · rw [hr.home] at hj
    by_cases hji : j = i
    · simp [hji] at hj
    rw [if_neg hji] at hj
    rw [hr.body j d hj, Option.map_eq_some_iff] at hbody
    obtain ⟨body, hbody, rfl⟩ := hbody
    have hshape : h.destShape? j = g.destShape? j := by simp only [destShape?, hr.dest, hr.shape]
    rw [hshape]
    refine Body.Meets.replaced ?_ hr hcg (fun v hv => hcg.live_src hj hbody hv) hρ
    rcases he.grown.home_cases hf.tidy.linked.placed he.tidy.linked.placed hj with hold | hnew
    · obtain ⟨x, hx', -⟩ := home?_eq_some.mp hold
      have hbody' : f.body? j = some body := by rw [← he.grown.body hx', hbody]
      rw [he.grown.destShape hf.tidy.linked.defined hx']
      exact ((hf.bodies j d body hold hbody').extends hx).grows hf.tidy.linked.defined he.grown
        fun v hv => hf.closed.live_src hold hbody' hv
    · obtain ⟨_, body', -, hbody', hp, -⟩ := he.mem_new hnew
      obtain rfl : body = body' := by simpa [hbody] using hbody'
      exact hP _ _ hp
  · rw [hr.condition, Option.map_eq_some_iff] at hw
    obtain ⟨v, hv, rfl⟩ := hw
    have hvg := hcg.condition d v hv
    rw [he.grown.condition] at hv
    have hs := hρ v hvg
    rw [hr.isPlace hs.live]
    rcases hs.same with hsame | ⟨-, hnot⟩
    · rw [hsame, he.grown.isPlace hf.tidy.linked.defined (hf.closed.condition d v hv).hasValue]
      exact hf.conditions hT d v hv
    · exact hnot

theorem Grown.home_mono (hg : f.Grown i news g) {j : InstrId} {d : BlockId}
    (hj : f.home? j = some d) : g.home? j = some d := by
  obtain ⟨x, hx, -⟩ := home?_eq_some.mp hj
  rw [hg.home hx, hj]

theorem Grown.home_new (hg : f.Grown i news g) (hp : g.Placed) (hi : i ∈ f.blockInstrs b)
    {m : InstrId} (hm : m ∈ news) : g.home? m = some b := by
  refine hp.mem_iff.mp ?_
  rw [hg.blocks, List.mem_flatMap]
  exact ⟨i, hi, by simp [hm]⟩

theorem Grown.before (hg : f.Grown i news g) {d : InstrId} {done done' : List InstrId}
    (h : f.Before d b done)
    (hdone : ∀ j ∈ done.flatMap fun j => if j = i then news ++ [i] else [j], j ∈ done') :
    g.Before d b done' := by
  refine h.mono hg.flow (fun _ => hg.home_mono) fun hd => hdone d (List.mem_flatMap.mpr ⟨d, hd, ?_⟩)
  by_cases hdi : d = i <;> simp [hdi]

section Dominance

variable {done rest : List InstrId} (he : Emits P f i news g) (hf : f.Tidy)
  (hdom : f.DominanceRespecting) (hb : f.blockInstrs b = done ++ i :: rest) (hr : Replaced g i ρ h)
  (hold : f.blocks.Reachable b → ∀ n ∈ news, ∀ body, g.body? n = some body → ∀ v ∈ body.srcs,
    f.hasValue v → ∃ d, f.source? v = some d ∧ f.Before d b done)
  (hfix : ∀ v, f.dest? i ≠ some v → ρ v = v)
  (hdest : ∀ v, f.dest? i = some v → (∃ m ∈ news, g.source? (ρ v) = some m) ∨
    (∀ u, f.reads? u ≠ some v) ∧ ∀ d, f.condition? d ≠ some v)

include he hf hb

section Operands

include hfix

omit he hb in
theorem source_of_fixed {d : InstrId} {v : ValueId} (hg : f.Grown i news g)
    (hd : f.source? v = some d) (hdi : d ≠ i) : g.source? (ρ v) = some d := by
  have hv : f.dest? i ≠ some v := fun hv =>
    hdi (by simpa [(hf.linked.defined.iff i v).mp hv] using hd.symm)
  rw [hfix v hv]
  exact hg.source v d hd

include hdom hdest in
omit hb in
theorem Emits.before_old {b' : BlockId} {done' rest' : List InstrId} {j : InstrId} {s : Nat}
    {v : ValueId} (hreach : f.blocks.Reachable b') (hblock : f.blockInstrs b' = done' ++ j :: rest')
    (hread : f.reads? ⟨j, s⟩ = some v) :
    ∃ d, g.source? (ρ v) = some d ∧ d ≠ i ∧
      g.Before d b' (done'.flatMap fun j => if j = i then news ++ [i] else [j]) := by
  have hg := he.grown
  obtain ⟨d, hd, hbefore⟩ := hdom.operand b' done' j rest' s v hreach hblock hread
  by_cases hdi : d = i
  · subst hdi
    rcases hdest v ((hf.linked.defined.iff d v).mpr hd) with ⟨m, hm, hsm⟩ | ⟨hunread, -⟩
    · refine ⟨m, hsm, fun hmi => he.apart (hmi ▸ hm), ?_⟩
      rcases hbefore with hmem | ⟨c, hc, hstrict⟩
      · exact .inl (List.mem_flatMap.mpr ⟨d, hmem, by simp [hm]⟩)
      · have hmem : d ∈ f.blockInstrs c := hf.linked.placed.mem_iff.mpr hc
        exact .inr ⟨c, hg.home_new he.tidy.linked.placed hmem hm, hstrict.congr hg.flow⟩
    · exact absurd hread (hunread _)
  · exact ⟨d, source_of_fixed hf hfix hg hd hdi, hdi, hg.before hbefore fun _ hm => hm⟩

include hold in
theorem Emits.before_new {pre post : List InstrId} {n : InstrId} {s : Nat} {v : ValueId}
    (hsplit : news = pre ++ n :: post) (hreach : f.blocks.Reachable b)
    (hread : g.reads? ⟨n, s⟩ = some v) :
    ∃ d, g.source? (ρ v) = some d ∧ d ≠ i ∧
      g.Before d b ((done.flatMap fun j => if j = i then news ++ [i] else [j]) ++ pre) := by
  have hg := he.grown
  obtain ⟨_, body, _, hbody, -, hsrc⟩ := he.new pre n post hsplit
  have hmem := List.mem_of_getElem? (srcs_of_reads hread hbody)
  rcases hsrc v hmem with hlive | ⟨m, hm, hsm⟩
  · obtain ⟨d, hd, hbefore⟩ := hold hreach n (by simp [hsplit]) body hbody v hmem hlive.hasValue
    have hdi : d ≠ i := by
      rintro rfl
      exact not_before_self hf.linked.placed hb hbefore
    exact ⟨d, source_of_fixed hf hfix hg hd hdi, hdi, hg.before hbefore fun _ hm =>
      List.mem_append_left pre hm⟩
  · have hmi : m ≠ i := fun hmi => he.apart (by simp [hsplit, ← hmi, hm])
    have hv : f.dest? i ≠ some v := by
      intro hv
      have hs := hg.source v i ((hf.linked.defined.iff i v).mp hv)
      exact hmi (by simpa [hsm] using hs)
    rw [hfix v hv]
    exact ⟨m, hsm, hmi, .inl (by simp [hm])⟩

end Operands

include hdom hr hold hfix hdest

/-- Operands stay defined at dominating points if what the new instructions read of old is so
where they stand, and what is read for the value that goes is among the new. -/
theorem Emits.dominance : h.DominanceRespecting := by
  have hg := he.grown
  have hpf := hf.linked.placed
  have hpg := he.tidy.linked.placed
  refine hr.dominance hpg ?_ ?_
  · intro b' done' j rest' s v hreach hblock hji hread
    have hreach' : f.blocks.Reachable b' := hreach.congr fun x => (hg.flow x).symm
    have hjg : g.home? j = some b' := hpg.mem_iff.mp (by simp [hblock])
    have hnd := hpg.nodup b'
    rw [hg.blocks] at hnd hblock
    rcases hg.home_cases hpf hpg hjg with hjold | hjnew
    · have hone : (if j = i then news ++ [i] else [j]) = [] ++ j :: [] := by simp [hji]
      obtain ⟨done₀, rest₀, hl, rfl⟩ := split_expand hnd (hpf.mem_iff.mpr hjold) hone hblock
      rw [hg.reads (u := ⟨j, s⟩) hjold] at hread
      rw [List.append_nil]
      exact he.before_old hf hdom hfix hdest hreach' hl hread
    · obtain rfl : b = b' := by simpa [hg.home_new hpg (b := b) (by simp [hb]) hjnew] using hjg
      obtain ⟨pre, post, hsplit⟩ := List.append_of_mem hjnew
      have hone : (if i = i then news ++ [i] else [i]) = pre ++ j :: (post ++ [i]) := by
        simp [hsplit]
      obtain ⟨done₀, rest₀, hl, rfl⟩ := split_expand hnd (by simp [hb]) hone hblock
      obtain ⟨rfl, -⟩ := hpf.split_unique hb hl
      exact he.before_new hf hb hold hfix hsplit hreach' hread
  · intro b' v hreach hcond
    rw [hg.condition] at hcond
    obtain ⟨d, c, hd, hc, hdc⟩ := hdom.condition b' v (hreach.congr fun x => (hg.flow x).symm) hcond
    by_cases hdi : d = i
    · subst hdi
      rcases hdest v ((hf.linked.defined.iff d v).mpr hd) with ⟨m, hm, hsm⟩ | ⟨-, hunread⟩
      · exact ⟨m, c, hsm, fun hmi => he.apart (hmi ▸ hm),
          hg.home_new hpg (hpf.mem_iff.mpr hc) hm, hdc.congr hg.flow⟩
      · exact absurd hcond (hunread b')
    · exact ⟨d, c, source_of_fixed hf hfix hg hd hdi, hdi, hg.home_mono hc, hdc.congr hg.flow⟩

end Dominance

/-- `h` has the instructions of `f` but `i`, with the same places, and new ones that look like
`New`. -/
structure Traded (New : Body → Prop) (f : Function) (i : InstrId) (h : Function) : Prop where
  gone : h.home? i = none
  source : ∀ v j, f.source? v = some j → h.source? v = some j
  old : ∀ j b body, j ≠ i → f.home? j = some b → f.body? j = some body →
    h.home? j = some b ∧ h.dest? j = f.dest? j ∧
      ∃ ρ, h.body? j = some (body.mapSrcs ρ) ∧ ∀ s v, f.isPlace v → ρ s v = v
  only : ∀ j b body, h.home? j = some b → h.body? j = some body →
    j ≠ i ∧ f.home? j = some b ∨ New body

theorem Emits.traded {New : Body → Prop} (he : Emits P f i news g) (hf : f.Linked)
    (hr : Replaced g i ρ h) (hρ : ∀ v, f.isPlace v → ρ v = v)
    (hP : ∀ body dest, P.holds g body dest → New body)
    (hnew : ∀ body ρ, New body → New (body.mapSrcs ρ)) : Traded New f i h := by
  have hg := he.grown
  refine ⟨by simp [hr.home], fun v j hs => by rw [hr.source, hg.source v j hs], ?_, ?_⟩
  · intro j d body hji hj hbody
    obtain ⟨x, hx, -⟩ := home?_eq_some.mp hj
    have hjg : g.home? j = some d := hg.home_mono hj
    refine ⟨by rw [hr.home, if_neg hji, hjg], by rw [hr.dest, hg.destOld hx], fun _ => ρ, ?_,
      fun _ v hv => hρ v hv⟩
    rw [hr.body j d hjg, hg.body hx, hbody, Option.map_some]
  · intro j d body hj hbody
    rw [hr.home] at hj
    by_cases hji : j = i
    · simp [hji] at hj
    rw [if_neg hji] at hj
    rcases hg.home_cases hf.placed he.tidy.linked.placed hj with hold | hnews
    · exact .inl ⟨hji, hold⟩
    · obtain ⟨_, body', -, hbody', hp, -⟩ := he.mem_new hnews
      rw [hr.body j d hj, hbody', Option.map_some] at hbody
      obtain rfl : _ = body := Option.some.inj hbody
      exact .inr (hnew body' _ (hP body' _ hp))

section Load

variable {v w : ValueId}

theorem Emits.handOver_ok (he : Emits P f i news g) (hf : f.Tidy) (hc : f.Closed)
    (hi : f.home? i = some b) (hd : f.dest? i = some v) (hw : f.hasValue w = false)
    (hlive : g.Live w) :
    ∃ k h, g.replaceUses v w = .ok k ∧ k.remove i = .ok h ∧ h.Tidy ∧ h.Closed ∧
      Replaced g i (handOver v w) h := by
  obtain ⟨x, hx, -⟩ := home?_eq_some.mp hi
  have hdg : g.dest? i = some v := by rw [he.grown.destOld hx, hd]
  have hv : f.hasValue v := by
    have hs := (hf.linked.defined.iff i v).mp hd
    obtain ⟨y, hy, -⟩ := Option.map_eq_some_iff.mp hs
    exact hasValue_iff.mpr ⟨y, hy⟩
  have hne : v ≠ w := by
    rintro rfl
    simp [hv] at hw
  obtain ⟨k, h, hk, hh, ht, hr⟩ := replaced_of_replaceUses he.tidy
    (he.grown.home_mono hi) hdg hne hlive.hasValue
  have hsource : ∀ z, g.source? z = some i → z = v := by
    intro z hz
    have := (he.tidy.linked.defined.iff i z).mpr hz
    simpa [hdg] using this.symm
  have hto : ∀ z, g.Live z → g.Live (handOver v w z) ∧ g.source? (handOver v w z) ≠ some i := by
    intro z hz
    by_cases hzv : z = v
    · simp only [handOver, hzv, if_true]
      exact ⟨hlive, fun hs => hne (hsource w hs).symm⟩
    · simp only [handOver, hzv, if_false]
      exact ⟨hz, fun hs => hzv (hsource z hs)⟩
  have hcg := he.closed hf.linked.placed hc
  exact ⟨k, h, hk, hh, ht, hr.closed (fun u z _ hu => hto z (hcg.source u z hu))
    (fun d z hz => hto z (hcg.condition d z hz)), hr⟩

/-- A run goes through if at the load the new value comes to hold what was loaded. -/
theorem Emits.refines_load [FloatOps] (he : Emits P f i news g) (hf : f.Tidy)
    (hi : f.home? i = some b) (hd : f.dest? i = some v) (hw : f.hasValue w = false)
    (hx : vars.Extends vars') (hr : Replaced g i (handOver v w) h)
    (hsem : ∀ io done rest e e₁ e', Arrives f vars io b done e →
      f.blockInstrs b = done ++ i :: rest → f.step? vars i e = some e₁ →
      e.Tracks (handOver v w) (fun v => f.hasValue v) e' →
      (∀ n ∈ news, ∀ body, g.body? n = some body → ∀ z ∈ body.srcs, z ≠ v) ∧
      ∃ x, e₁ = e.define v x ∧ f.Gives vars' e' news g w x) :
    Refines f vars h vars' := by
  refine refines_of_replaced hf hi hx he.grown hr
    (fun u z _ hu => hf.linked.sourced.hasValue_of_reads hu) hf.linked.branches.known ?_ ?_
  · intro z hz j d hji hjd
    have hdv : d ≠ v := by
      rintro rfl
      have h₁ := (hf.linked.defined.iff j d).mp hjd
      have h₂ := (hf.linked.defined.iff i d).mp hd
      exact hji (by simpa [h₁] using h₂)
    have hdw : w ≠ d := by
      rintro rfl
      have hs := (hf.linked.defined.iff j w).mp hjd
      obtain ⟨y, hy, -⟩ := Option.map_eq_some_iff.mp hs
      simp [hasValue_iff.mpr ⟨y, hy⟩] at hw
    by_cases hzv : z = v
    · simp [handOver, hzv, hdw, hdv.symm]
    · simp [handOver, hzv]
  · intro io done rest e e₁ e' ha hb hs ht
    obtain ⟨hsrc, x, rfl, e₁', he', hag, hio, hval, hplace⟩ := hsem io done rest e e₁ e' ha hb hs ht
    refine ⟨fun n hn body hbody z hz => if_neg (hsrc n hn body hbody z hz), e₁', he', ?_, ?_, ?_⟩
    · intro z hz
      by_cases hzv : z = v
      · simp [handOver, Env.define, hzv, hval]
      · have hold := ht.values z hz
        simp only [handOver, hzv, if_false] at hold
        simp [handOver, Env.define, hzv, (hag z hz).1, hold]
    · intro z hz
      have hold := ht.places z hz
      by_cases hzv : z = v
      · simp only [handOver, hzv, if_true] at hold ⊢
        rw [hplace, hold]
        rfl
      · simp only [handOver, hzv, if_false] at hold ⊢
        rw [(hag z hz).2, hold]
        rfl
    · rw [hio, ht.io]
      rfl

theorem Emits.trade_load {New : Body → Prop} {Old : ValueId → Prop} {done rest : List InstrId}
    (he : Emits (T.emitted vars' f New Old) f i news g) (hf : f.Sound T vars)
    (hx : vars.Extends vars') (hb : f.blockInstrs b = done ++ i :: rest) (hd : f.dest? i = some v)
    (hv : f.isPlace v = false) (hw : f.hasValue w = false) (hlive : g.Live w)
    (hplace : g.isPlace w = false) (hshape : T.exact → g.shape? w = f.shape? v)
    (hold : T.ordered → f.blocks.Reachable b → ∀ z, Old z →
      ∃ d, f.source? z = some d ∧ f.Before d b done)
    (hnew : ∀ body ρ, New body → New (body.mapSrcs ρ)) :
    ∃ k h, g.replaceUses v w = .ok k ∧ k.remove i = .ok h ∧ h.Sound T vars' ∧ Traded New f i h ∧
      Replaced g i (handOver v w) h := by
  have hi : f.home? i = some b := hf.tidy.linked.placed.mem_iff.mp (by simp [hb])
  obtain ⟨k, h, hk, hh, ht, hc, hr⟩ := he.handOver_ok hf.tidy hf.closed hi hd hw hlive
  have hfv : f.hasValue v := by
    obtain ⟨x, hx, -⟩ := Option.map_eq_some_iff.mp ((hf.tidy.linked.defined.iff i v).mp hd)
    exact hasValue_iff.mpr ⟨x, hx⟩
  have hsource : ∃ m ∈ news, g.source? w = some m := by
    rcases he.grown.live_cases hf.tidy.linked he.tidy.linked hlive with hold | hnew
    · simp [hold.hasValue] at hw
    · exact hnew
  have hserves : ∀ z, g.Live z → g.Serves T z (handOver v w z) := by
    intro z hz
    by_cases hzv : z = v
    · subst hzv
      rw [handOver, if_pos rfl]
      refine ⟨hlive, .inr ⟨?_, hplace⟩, fun hT => ?_⟩
      · rw [he.grown.isPlace hf.tidy.linked.defined hfv, hv]
      · obtain ⟨s, hs⟩ := exists_shape hfv
        rw [hshape hT, hs, he.grown.shape z s hs]
    · rw [handOver, if_neg hzv]
      exact .refl hz
  refine ⟨k, h, hk, hh, he.sound hf hx (fun _ _ hp => hp.1) hr ht hc hserves fun hT => ?_,
    he.traded hf.tidy.linked hr (fun z hz => ?_) (fun _ _ hp => hp.2.1) hnew, hr⟩
  · refine he.dominance hf.tidy (hf.ordered hT) hb hr (fun hreach n hn body hbody z hz hk => ?_)
      (fun z hz => if_neg (by rintro rfl; exact hz hd)) fun z hz => .inl ?_
    · obtain ⟨_, body', -, hbody', hp, -⟩ := he.mem_new hn
      obtain rfl : body = body' := by simpa [hbody] using hbody'
      exact hold hT hreach z (hp.2.2 z hz hk)
    · obtain rfl : v = z := by simpa [hd] using hz
      rwa [handOver, if_pos rfl]
  · refine if_neg fun hzv => ?_
    simp [hzv, hv] at hz

end Load

section Store

theorem Emits.remove_ok (he : Emits P f i news g) (hf : f.Tidy) (hc : f.Closed)
    (hi : f.home? i = some b) (hd : f.dest? i = none) :
    ∃ h, g.remove i = .ok h ∧ h.Tidy ∧ h.Closed ∧ Replaced g i (fun v => v) h := by
  obtain ⟨x, hx, -⟩ := home?_eq_some.mp hi
  have hdg : g.dest? i = none := by rw [he.grown.destOld hx, hd]
  obtain ⟨h, hh⟩ := remove_isOk_of_unread he.tidy (he.grown.home_mono hi)
    (by simp [hdg])
  have hr := replaced_of_remove he.tidy.linked.placed hh
  have ht : h.Tidy := by
    refine he.tidy.apply (e := .remove i) trivial ?_
    simp only [Edit.apply, hh]
  have hsource : ∀ z, g.source? z ≠ some i := by
    intro z hz
    have := (he.tidy.linked.defined.iff i z).mpr hz
    simp [hdg] at this
  have hcg := he.closed hf.linked.placed hc
  exact ⟨h, hh, ht, hr.closed (fun u z _ hu => ⟨hcg.source u z hu, hsource z⟩)
    (fun d z hz => ⟨hcg.condition d z hz, hsource z⟩), hr⟩

/-- Trading a store for what was stored piece by piece. -/
theorem Emits.trade_store {New : Body → Prop} {Old : ValueId → Prop} {done rest : List InstrId}
    (he : Emits (T.emitted vars' f New Old) f i news g) (hf : f.Sound T vars)
    (hx : vars.Extends vars') (hb : f.blockInstrs b = done ++ i :: rest) (hd : f.dest? i = none)
    (hold : T.ordered → f.blocks.Reachable b → ∀ z, Old z →
      ∃ d, f.source? z = some d ∧ f.Before d b done)
    (hnew : ∀ body ρ, New body → New (body.mapSrcs ρ)) :
    ∃ h, g.remove i = .ok h ∧ h.Sound T vars' ∧ Traded New f i h ∧
      Replaced g i (fun v => v) h := by
  have hi : f.home? i = some b := hf.tidy.linked.placed.mem_iff.mp (by simp [hb])
  obtain ⟨h, hh, ht, hc, hr⟩ := he.remove_ok hf.tidy hf.closed hi hd
  refine ⟨h, hh, he.sound hf hx (fun _ _ hp => hp.1) hr ht hc (fun _ hz => .refl hz) fun hT => ?_,
    he.traded hf.tidy.linked hr (fun _ _ => rfl) (fun _ _ hp => hp.2.1) hnew, hr⟩
  refine he.dominance hf.tidy (hf.ordered hT) hb hr (fun hreach n hn body hbody z hz hk => ?_)
    (fun _ _ => rfl) fun z hz => by simp [hd] at hz
  obtain ⟨_, body', -, hbody', hp, -⟩ := he.mem_new hn
  obtain rfl : body = body' := by simpa [hbody] using hbody'
  exact hold hT hreach z (hp.2.2 z hz hk)

theorem Emits.refines_store [FloatOps] (he : Emits P f i news g) (hf : f.Tidy)
    (hi : f.home? i = some b) (hx : vars.Extends vars') (hr : Replaced g i (fun v => v) h)
    (hsem : ∀ io done rest e e₁ e', Arrives f vars io b done e →
      f.blockInstrs b = done ++ i :: rest → f.step? vars i e = some e₁ →
      e.Tracks (fun v => v) (fun v => f.hasValue v) e' →
      ∃ out, e₁ = { e with io := { e.io with outputs := out } } ∧
        f.Writes vars' e' news g out) :
    Refines f vars h vars' := by
  refine refines_of_replaced hf hi hx he.grown hr
    (fun u z _ hu => hf.linked.sourced.hasValue_of_reads hu) hf.linked.branches.known
    (fun _ _ _ _ _ _ => Iff.rfl) ?_
  intro io done rest e e₁ e' ha hb hs ht
  obtain ⟨out, rfl, e₁', he', hag, hio⟩ := hsem io done rest e e₁ e' ha hb hs ht
  refine ⟨fun _ _ _ _ _ _ => rfl, e₁', he', fun z hz => ?_, fun z hz => ?_, by rw [hio, ht.io]⟩
  · rw [(hag z hz).1, ht.values z hz]
  · rw [(hag z hz).2, ht.places z hz]

end Store

end Function

end ShaderSSA
