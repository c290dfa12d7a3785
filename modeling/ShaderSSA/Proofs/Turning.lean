import ShaderSSA.Proofs.Rerouting

/-! What moving the readers of a half does to runs. Where a half is read, the wide instruction and
the copies behind it have been done, so each move leaves every run as it was. -/

namespace ShaderSSA

/-- The wide instruction behind `a`, with `tail` behind it, where `d` defines a half. -/
structure Wide.Stands (W : Wide) (f : Function) (a d : InstrId) (h : Half)
    (tail : List InstrId) : Prop where
  ssa : f.Ssa
  spans : W.Spans f d h
  trailed : f.Trailed a (W.instr :: tail)
  leads : f.Leads a d
  apart : ∀ t ∈ W.instr :: tail, ∀ s, f.reads? ⟨t, s⟩ ≠ some h.value

namespace Wide.Stands

variable {W : Wide} {f g : Function} {a d j n : InstrId} {h : Half} {tail done rest : List InstrId}
  {b c : BlockId} {u : Use} {v : ValueId}

theorem source (hs : W.Stands f a d h tail) :
    f.source? h.value = some d ∧ f.source? W.value = some W.instr :=
  ⟨(hs.ssa.tidy.linked.defined.iff d h.value).mp hs.spans.halfDest,
    (hs.ssa.tidy.linked.defined.iff W.instr W.value).mp hs.spans.dest⟩

theorem live_of_dest (hs : W.Stands f a d h tail) (hn : n ∈ W.instr :: tail)
    (hv : f.dest? n = some v) : f.Live v := by
  obtain ⟨b, -, -, hhomes⟩ := hs.trailed.home hs.ssa.tidy.linked.placed
  exact ⟨n, b, (hs.ssa.tidy.linked.defined.iff n v).mp hv, hhomes n hn⟩

theorem offers (hs : W.Stands f a d h tail) : W.Offers f h := by
  obtain ⟨b, -, -, hhomes⟩ := hs.trailed.home hs.ssa.tidy.linked.placed
  exact ⟨⟨b, hhomes W.instr (by simp)⟩, hs.spans.dest, hs.spans.shape, hs.spans.halfShape,
    hs.spans.fit, hs.spans.narrow⟩

theorem before_reader (hs : W.Stands f a d h tail) (hr : f.blocks.Reachable c)
    (hc : f.blockInstrs c = done ++ j :: rest) {s : Nat} (hj : f.reads? ⟨j, s⟩ = some h.value) :
    f.Before d c done ∧ ∀ t ∈ W.instr :: tail, f.Before t c done := by
  have hp := hs.ssa.tidy.linked.placed
  obtain ⟨d', hd', hbefore⟩ := hs.ssa.dominance.operand c done j rest s h.value hr hc hj
  obtain rfl : d = d' := by simpa [hs.source.1] using hd'
  refine ⟨hbefore, fun t ht => ?_⟩
  refine hs.trailed.before hp hc (hs.leads.before hp hr hc hbefore) ?_ ht
  intro t' ht' hhead
  obtain rfl : j = t' := by simpa using hhead
  exact hs.apart j ht' s hj

theorem before_branch (hs : W.Stands f a d h tail) (hr : f.blocks.Reachable c)
    (hc : f.condition? c = some h.value) : f.Before d c (f.blockInstrs c) ∧
      ∀ t ∈ W.instr :: tail, f.Before t c (f.blockInstrs c) := by
  have hp := hs.ssa.tidy.linked.placed
  obtain ⟨d', k, hd', hk, hdom⟩ := hs.ssa.dominance.condition c h.value hr hc
  obtain rfl : d = d' := by simpa [hs.source.1] using hd'
  have hbefore : f.Before d c (f.blockInstrs c) := (Function.before_end_iff hp).mpr ⟨k, hk, hdom⟩
  have hend : f.blockInstrs c = f.blockInstrs c ++ [] := by simp
  exact ⟨hbefore, fun t ht => hs.trailed.before hp hend (hs.leads.before hp hr hend hbefore)
    (by simp) ht⟩

variable [FloatOps]

/-- An arithmetic reader selects its lanes from the wide value. -/
theorem turn_alu (hs : W.Stands f a d h tail) {al : Alu} {read : Nat} {o : Operand}
    (hu : f.reads? u = some h.value) (hbody : f.body? u.instr = some (.alu al))
    (ho : al.srcs[u.slot]? = some o)
    (hread : al.op.readWidth? (f.destShape? u.instr) u.slot = some read)
    (hr : f.Rebodied u.instr (.alu ⟨al.op, al.srcs.set u.slot
      ⟨W.value, o.swizzle.shifted h.offset read⟩⟩) g) (hg : g.Tidy) : f.Evolves g := by
  obtain ⟨b, _, hb, hbody', hsrc⟩ := Function.reads?_iff.mp hu
  obtain rfl : Body.alu al = _ := by simpa [hbody] using hbody'
  have hvalue : o.value = h.value := by simpa [Body.srcs, ho] using hsrc
  have hfit := hs.ssa.verified.alu u.instr b al hb hbody
  obtain ⟨hm4, hlanes⟩ := hs.offers.lanes_half hfit ho hvalue hread
  have hup := hs.offers.lanes hlanes
  have hw4 := hs.spans.width_le hs.ssa
  have hwidth := hs.spans.fit
  have hlt : u.slot < al.srcs.length := (List.getElem?_eq_some_iff.mp ho).1
  refine hr.evolves hs.ssa hg (hr.keeps_alu hs.ssa.tidy.linked.sourced hbody) hbody
    (hs.offers.fits hfit ho hvalue hread) ?_ ?_ ?_
  · intro w hw
    simp only [Body.srcs, List.map_set] at hw
    rcases List.mem_or_eq_of_mem_set hw with hold | rfl
    · obtain ⟨s, hread'⟩ := Function.reads?_of_mem hb hbody hold
      exact hs.ssa.verified.closed.source _ w hread'
    · exact hs.offers.live hs.ssa.tidy.linked.defined
  · intro c done rest w hc hblock hw
    simp only [Body.srcs, List.map_set] at hw
    rcases List.mem_or_eq_of_mem_set hw with hold | rfl
    · obtain ⟨s, hread'⟩ := Function.reads?_of_mem hb hbody hold
      exact hs.ssa.dominance.operand c done u.instr rest s w hc hblock hread'
    · exact ⟨W.instr, hs.source.2, (hs.before_reader hc hblock hu).2 W.instr (by simp)⟩
  · intro vars io c done rest e r ha hblock heff
    obtain ⟨hd, htail⟩ := hs.before_reader ha.reachable hblock hu
    obtain ⟨-, x, y, hx, hy, hxy⟩ := hs.spans.agree hs.ssa ha hd (htail W.instr (by simp))
    have hsame : e.operand read ⟨W.value, o.swizzle.shifted h.offset read⟩ = e.operand read o := by
      rw [Env.operand_eq_some (o := o) (hvalue ▸ hx) hm4 fun k hk => by
          have hk' := hlanes k hk
          omega,
        Env.operand_eq_some hy hm4 fun k hk => lt_of_lt_of_le (hup k hk) hw4,
        Swizzle.take_shifted, List.map_map]
      refine congrArg (fun l => some (Lanes.ofList l)) (List.map_congr_left fun k hk => ?_)
      rw [hxy, if_pos (hlanes k hk), Nat.add_comm]
      rfl
    have halu : e.alu (f.destShape? u.instr) ⟨al.op, al.srcs.set u.slot
        ⟨W.value, o.swizzle.shifted h.offset read⟩⟩ = e.alu (f.destShape? u.instr) al := by
      refine Env.alu_congr (by simp) fun s p p' hp hp' n hn => ?_
      by_cases hslot : u.slot = s
      · subst hslot
        obtain rfl : o = p := by simpa [ho] using hp
        obtain rfl : read = n := by simpa [hread] using hn
        obtain rfl : (⟨W.value, o.swizzle.shifted h.offset read⟩ : Operand) = p' := by
          simpa [List.getElem?_set, hlt] using hp'
        exact hsame
      · rw [List.getElem?_set, if_neg hslot, hp] at hp'
        rw [Option.some.inj hp']
    simpa only [Env.effect, halu] using heff

theorem turn_other (hs : W.Stands f a d h tail) {body : Body} (hn : n ∈ tail)
    (hcopy : W.Copies f h n v) (hu : f.reads? u = some h.value)
    (hbody : f.body? u.instr = some body) (halu : body.alu? = none)
    (hr : f.Rebodied u.instr (body.mapSrcs fun s w => if s = u.slot then v else w) g)
    (hg : g.Tidy) : f.Evolves g := by
  obtain ⟨b, _, hb, hbody', hsrc⟩ := Function.reads?_iff.mp hu
  obtain rfl : body = _ := by simpa [hbody] using hbody'
  have hv : f.source? v = some n := (hs.ssa.tidy.linked.defined.iff n v).mp hcopy.dest
  have hlive : f.Live v := hs.live_of_dest (by simp [hn]) hcopy.dest
  have hkeeps : f.Keeps g := by
    refine hr.keeps_other hs.ssa.tidy.linked.sourced hbody halu fun s w hw => ?_
    by_cases hslot : s = u.slot
    · obtain rfl : h.value = w := by simpa [hslot, hsrc] using hw
      rw [if_pos hslot]
      obtain ⟨srcs, hhalf, -⟩ := hs.spans.half
      obtain ⟨o, hmov, -⟩ := hcopy.body
      exact ⟨⟨_, hs.spans.halfShape, hcopy.shape⟩,
        .inr ⟨⟨d, _, hs.source.1, hhalf⟩, ⟨n, _, hv, hmov⟩⟩⟩
    · rw [if_neg hslot]
      exact .refl (hs.ssa.tidy.linked.sourced.hasValue_of_reads (u := ⟨u.instr, s⟩)
        (Function.reads?_iff.mpr ⟨b, body, hb, hbody, hw⟩))
  refine hr.evolves hs.ssa hg hkeeps hbody ?_ (fun w hw => ?_) ?_ ?_
  · exact (hs.ssa.verified.fits u.instr b body hb hbody).mapSrcs halu
  · obtain ⟨s, hw⟩ := List.getElem?_of_mem hw
    rw [Body.getElem?_srcs_mapSrcs, Option.map_eq_some_iff] at hw
    obtain ⟨w', hw', rfl⟩ := hw
    split
    · exact hlive
    · exact hs.ssa.verified.closed.source ⟨u.instr, s⟩ w'
        (Function.reads?_iff.mpr ⟨b, body, hb, hbody, hw'⟩)
  · intro c done rest w hc hblock hw
    obtain ⟨s, hw⟩ := List.getElem?_of_mem hw
    rw [Body.getElem?_srcs_mapSrcs, Option.map_eq_some_iff] at hw
    obtain ⟨w', hw', hif⟩ := hw
    by_cases hslot : s = u.slot
    · rw [if_pos hslot] at hif
      exact ⟨n, hif ▸ hv, (hs.before_reader hc hblock hu).2 n (by simp [hn])⟩
    · rw [if_neg hslot] at hif
      subst hif
      exact hs.ssa.dominance.operand c done u.instr rest s w' hc hblock
        (Function.reads?_iff.mpr ⟨b, body, hb, hbody, hw'⟩)
  · intro vars io c done rest e r ha hblock heff
    obtain ⟨hd, htail⟩ := hs.before_reader ha.reachable hblock hu
    have hold := hcopy.holds hs.spans hs.ssa ha hd (htail W.instr (by simp))
      (htail n (by simp [hn]))
    refine Env.effect_mapSrcs (.refl vars) (fun _ => rfl) (fun s w hw => ?_) heff
    by_cases hslot : s = u.slot
    · subst hslot
      obtain rfl : h.value = w := by simpa [hsrc] using hw
      simpa using hold
    · simp [hslot, Env.Holds]

theorem turn_branch (hs : W.Stands f a d h tail) (hn : n ∈ tail) (hcopy : W.Copies f h n v)
    (hb : f.condition? b = some h.value) (hr : f.Retested b v g) (hg : g.Tidy) :
    f.Evolves g := by
  have hp := hs.ssa.tidy.linked.placed
  have hlive : f.Live v := hs.live_of_dest (by simp [hn]) hcopy.dest
  refine hr.evolves hs.ssa hg hb hlive (fun hreach => ?_) fun vars io e ha => ?_
  · have hbefore := (hs.before_branch hreach hb).2 n (by simp [hn])
    obtain ⟨c, hc, hdom⟩ := (Function.before_end_iff hp).mp hbefore
    exact ⟨n, c, (hs.ssa.tidy.linked.defined.iff n v).mp hcopy.dest, hc, hdom⟩
  · obtain ⟨hd, htail⟩ := hs.before_branch ha.reachable hb
    exact (hcopy.holds hs.spans hs.ssa ha hd (htail W.instr (by simp))
      (htail n (by simp [hn]))).1

theorem turn_copy (hs : W.Stands f a d h tail) {anchor : InstrId} {o : Operand}
    (hlast : (W.instr :: tail).getLast? = some anchor)
    (happ : f.Appended anchor n (.alu ⟨.mov, [o]⟩) ⟨h.width, W.bits⟩ v g) (hg : g.Tidy)
    (hvalue : o.value = W.value)
    (htake : o.swizzle.toList.take h.width = (List.range h.width).map (h.offset + ·)) :
    f.Evolves g := by
  obtain ⟨b, pre, post, hr, hblock⟩ := hs.trailed
  obtain ⟨init, hinit⟩ := List.getLast?_eq_some_iff.mp hlast
  have hdone : f.blockInstrs b = (pre ++ a :: init) ++ anchor :: post := by
    rw [hblock, hinit]
    simp
  have hbefore : f.Before W.instr b (pre ++ a :: init ++ [anchor]) := by
    have hmem : W.instr ∈ init ++ [anchor] := by simp [← hinit]
    exact .inl (by simpa using .inr (.inr (by simpa using hmem)))
  have hsrc : ∀ w ∈ (Body.alu ⟨.mov, [o]⟩).srcs, ∃ d, f.source? w = some d ∧
      f.Before d b (pre ++ a :: init ++ [anchor]) := by
    intro w hw
    obtain rfl : w = W.value := by simpa [Body.srcs, hvalue] using hw
    exact ⟨W.instr, hs.source.2, hbefore⟩
  refine happ.evolves hs.ssa hg hdone hsrc
    (hs.offers.fits_copy hs.ssa.tidy.linked.defined hvalue htake) fun vars io e ha => ?_
  obtain ⟨y, hy, halu⟩ := Function.settled_alu hs.ssa ha hbefore hs.spans.body hs.spans.dest
  rw [hs.spans.destShape.1] at halu
  have hbits : W.bits = 32 := (Env.ready_of_alu halu).1
  have hw4 := hs.spans.width_le hs.ssa
  have hfit := hs.spans.fit
  have hnarrow := hs.spans.narrow
  rw [hbits]
  refine ⟨_, Env.effect_mov (hvalue ▸ hy) (by omega) fun k hk => ?_⟩
  rw [htake, List.mem_map] at hk
  obtain ⟨k', hk', rfl⟩ := hk
  have hlt := List.mem_range.mp hk'
  omega

end Wide.Stands

end ShaderSSA
