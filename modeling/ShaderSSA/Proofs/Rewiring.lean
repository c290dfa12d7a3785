import ShaderSSA.Proofs.Turning

/-! What is left of a function when the readers of both halves have turned away. Copies line up
behind the wide instruction, and everything that does not read a half stays as it was. -/

namespace ShaderSSA

def Function.alu? (f : Function) (i : InstrId) : Option Alu := (f.body? i).bind Body.alu?

theorem Function.alu?_eq_some {f : Function} {i : InstrId} {al : Alu} :
    f.alu? i = some al ↔ f.body? i = some (.alu al) := by
  simp only [alu?, Option.bind_eq_some_iff]
  constructor
  · rintro ⟨body, hbody, hal⟩
    cases body <;> simp_all [Body.alu?]
  · intro hbody
    exact ⟨_, hbody, rfl⟩

variable {f g : Function} {W : Wide} {a d n : InstrId} {h : Half} {vs : List ValueId}
  {tail rewired rewired' : List InstrId} {u : Use} {v : ValueId}

/-- The same arithmetic, in which sources among `vs` may have turned to `w`. -/
structure Alu.Turned (vs : List ValueId) (w : ValueId) (al al' : Alu) : Prop where
  op : al'.op = al.op
  length : al'.srcs.length = al.srcs.length
  source : ∀ (s : Nat) o o', al.srcs[s]? = some o → al'.srcs[s]? = some o' →
    o'.value = o.value ∨ o.value ∈ vs ∧ o'.value = w

namespace Alu.Turned

variable {w : ValueId} {al al' al'' : Alu}

theorem refl (al : Alu) : al.Turned vs w al :=
  ⟨rfl, rfl, fun s o o' ho ho' => .inl (by rw [Option.some.inj (ho.symm.trans ho')])⟩

theorem trans (h : al.Turned vs w al') (h' : al'.Turned vs w al'') : al.Turned vs w al'' := by
  refine ⟨h'.op.trans h.op, h'.length.trans h.length, fun s o o'' ho ho'' => ?_⟩
  obtain ⟨hlt, -⟩ := List.getElem?_eq_some_iff.mp ho
  have ho' : al'.srcs[s]? = some (al'.srcs.get ⟨s, h.length ▸ hlt⟩) := by simp
  rcases h.source s o _ ho ho' with hsame | ⟨hmem, hw⟩
  · rcases h'.source s _ o'' ho' ho'' with hsame' | ⟨hmem', hw'⟩
    · exact .inl (hsame'.trans hsame)
    · exact .inr ⟨hsame ▸ hmem', hw'⟩
  · rcases h'.source s _ o'' ho' ho'' with hsame' | ⟨-, hw'⟩
    · exact .inr ⟨hmem, hsame'.trans hw⟩
    · exact .inr ⟨hmem, hw'⟩

theorem set {s : Nat} {o : Operand} {k : Swizzle} (ho : al.srcs[s]? = some o) (hm : o.value ∈ vs) :
    al.Turned vs w ⟨al.op, al.srcs.set s ⟨w, k⟩⟩ := by
  refine ⟨rfl, by simp, fun t p p' hp hp' => ?_⟩
  rw [List.getElem?_set] at hp'
  split at hp'
  · rename_i hst
    obtain rfl := Option.some.inj (ho.symm.trans (hst ▸ hp))
    split at hp'
    · obtain rfl := Option.some.inj hp'
      exact .inr ⟨hm, rfl⟩
    · cases hp'
  · exact .inl (by rw [Option.some.inj (hp.symm.trans hp')])

theorem values (h : al.Turned vs w al') (hnone : ∀ o ∈ al'.srcs, o.value ∉ vs) :
    al'.srcs.map (·.value) = (al.srcs.map (·.value)).map fun v => if v ∈ vs then w else v := by
  apply List.ext_getElem?
  intro s
  rw [List.map_map, List.getElem?_map, List.getElem?_map]
  cases ho : al.srcs[s]? with
  | none =>
    have hge : al'.srcs[s]? = none := by
      rw [List.getElem?_eq_none_iff, h.length]
      exact List.getElem?_eq_none_iff.mp ho
    rw [hge]
    rfl
  | some o =>
    obtain ⟨hlt, -⟩ := List.getElem?_eq_some_iff.mp ho
    have ho' : al'.srcs[s]? = some (al'.srcs.get ⟨s, h.length ▸ hlt⟩) := by simp
    have hnot := hnone _ (List.mem_of_getElem? ho')
    rw [ho', Option.map_some, Option.map_some, Option.some.injEq, Function.comp_apply]
    rcases h.source s o _ ho ho' with hsame | ⟨hmem, hw⟩
    · rw [hsame] at hnot ⊢
      rw [if_neg hnot]
    · rw [if_pos hmem, hw]

end Alu.Turned

/-- The wide instruction right behind `a`, and `d`, which defines a half and reads none. -/
structure Wide.Ready (W : Wide) (f : Function) (a d : InstrId) (h : Half) (vs : List ValueId) :
    Prop where
  stands : W.Stands f a d h []
  mem : h.value ∈ vs
  calm : ∀ s v, f.reads? ⟨d, s⟩ = some v → v ∉ vs
  calmWide : ∀ s v, f.reads? ⟨W.instr, s⟩ = some v → v ∉ vs

/-- What rewiring makes of `f`: readers of `vs` turn away and are noted if they are arithmetic, and
copies of the wide value line up behind it. -/
structure Rewires (f : Function) (W : Wide) (vs : List ValueId) (tail rewired : List InstrId)
    (g : Function) : Prop where
  flow : ∀ b, g.blocks.successors b = f.blocks.successors b
  blocks : ∀ b, g.blockInstrs b =
    (f.blockInstrs b).flatMap fun j => if j = W.instr then W.instr :: tail else [j]
  home : ∀ j b, f.home? j = some b → g.home? j = some b
  dest : ∀ j b, f.home? j = some b → g.dest? j = f.dest? j
  shape : ∀ v s, f.shape? v = some s → g.shape? v = some s
  body : ∀ j b, f.home? j = some b → (∀ s v, f.reads? ⟨j, s⟩ = some v → v ∉ vs) →
    g.body? j = f.body? j
  turned : ∀ j b al, f.home? j = some b → f.alu? j = some al →
    ∃ al', g.alu? j = some al' ∧ al.Turned vs W.value al'
  other : ∀ j b, f.home? j = some b → f.alu? j = none → g.alu? j = none
  kept : ∀ j b, f.home? j = some b → j ∉ rewired → g.alu? j = f.alu? j
  fresh : ∀ n ∈ tail, ∀ b, f.home? n ≠ some b
  copies : ∀ n ∈ tail, ∃ o : Operand, g.body? n = some (.alu ⟨.mov, [o]⟩) ∧ o.value = W.value

namespace Rewires

theorem refl : Rewires f W vs [] [] f := by
  refine ⟨fun _ => rfl, fun b => ?_, fun _ _ hj => hj, fun _ _ _ => rfl, fun _ _ hv => hv,
    fun _ _ _ _ => rfl, fun _ _ al _ hal => ⟨al, hal, .refl al⟩, fun _ _ _ hal => hal,
    fun _ _ _ _ => rfl, by simp, by simp⟩
  have hone : (fun j => if j = W.instr then [W.instr] else [j]) = fun j => [j] := by
    funext j
    by_cases hj : j = W.instr <;> simp [hj]
  rw [hone, List.flatMap_singleton']

theorem reads (hr : Rewires f W vs tail rewired g) {j : InstrId} {b : BlockId}
    (hj : f.home? j = some b) (hcalm : ∀ s v, f.reads? ⟨j, s⟩ = some v → v ∉ vs) (s : Nat) :
    g.reads? ⟨j, s⟩ = f.reads? ⟨j, s⟩ := by
  simp only [Function.reads?, Function.srcs?_eq_map, hr.body j b hj hcalm, hr.home j b hj, hj]

theorem reads_copies (hr : Rewires f W vs tail rewired g) (hn : n ∈ tail) {s : Nat}
    (hv : g.reads? ⟨n, s⟩ = some v) : v = W.value := by
  obtain ⟨o, hbody, ho⟩ := hr.copies n hn
  have hmem := List.mem_of_getElem? (Function.srcs_of_reads hv hbody)
  rw [← ho]
  simpa [Body.srcs] using hmem

theorem trail (hr : Rewires f W vs tail rewired g) (hf : f.Placed) {b : BlockId}
    {pre post : List InstrId} (hb : f.blockInstrs b = pre ++ W.instr :: post) :
    g.blockInstrs b = pre ++ W.instr :: (tail ++ post) := by
  have hnd := hf.nodup b
  rw [hb] at hnd
  rw [hr.blocks, hb, Function.expand_split hnd]
  simp

theorem stands [FloatOps] (hr : Rewires f W vs tail rewired g) (hev : f.Evolves g)
    (hw : W.Ready f a d h vs) : W.Stands g a d h tail := by
  have hp := hw.stands.ssa.tidy.linked.placed
  obtain ⟨b, -, -, hhomes⟩ := hw.stands.trailed.home hp
  have hhome : f.home? W.instr = some b := hhomes W.instr (by simp)
  obtain ⟨c, done, rest, hcr, hc⟩ := hw.stands.leads.reachable hw.stands.trailed
  have hd : f.home? d = some c := hp.mem_iff.mp (by simp [hc])
  have hne := hw.stands.offers.ne
  have hsp := hw.stands.spans
  refine ⟨hev.ssa, ?_, ?_, ?_, ?_⟩
  · obtain ⟨srcs, hbody, hcover⟩ := hsp.half
    exact ⟨by rw [hr.body _ b hhome hw.calmWide, hsp.body], by rw [hr.dest _ b hhome, hsp.dest],
      hr.shape _ _ hsp.shape, hsp.laneWise, hsp.notMove,
      ⟨srcs, by rw [hr.body _ c hd hw.calm, hbody], hcover⟩,
      by rw [hr.dest _ c hd, hsp.halfDest], hr.shape _ _ hsp.halfShape, hsp.fit, hsp.narrow⟩
  · obtain ⟨k, pre, post, hk, hblock⟩ := hw.stands.trailed
    refine ⟨k, pre, post, hk.congr hr.flow, ?_⟩
    have hlist : f.blockInstrs k = (pre ++ [a]) ++ W.instr :: post := by simp [hblock]
    rw [hr.trail hp hlist]
    simp
  · rcases hw.stands.leads with rfl | ⟨k, done', rest', hk, hblock, hbefore⟩
    · exact .inl rfl
    · have hdw : d ≠ W.instr := by
        rintro rfl
        exact hne (by simpa [hsp.dest] using hsp.halfDest.symm)
      refine .inr ⟨k, done'.flatMap fun j => if j = W.instr then W.instr :: tail else [j],
        rest'.flatMap fun j => if j = W.instr then W.instr :: tail else [j],
        hk.congr hr.flow, ?_, ?_⟩
      · rw [hr.blocks, hblock, List.flatMap_append, List.flatMap_cons, if_neg hdw]
        simp
      · refine hbefore.mono hr.flow (fun c hc => hr.home a c hc) fun hm => ?_
        refine List.mem_flatMap.mpr ⟨a, hm, ?_⟩
        by_cases haw : a = W.instr <;> simp [haw]
  · intro t ht s hread
    rcases List.mem_cons.mp ht with rfl | ht
    · rw [hr.reads hhome hw.calmWide] at hread
      exact hw.calmWide s _ hread hw.mem
    · exact hne (hr.reads_copies ht hread)

theorem rebodied {k : Function} {body : Body} (hr : Rewires f W vs tail rewired g)
    (hmem : v ∈ vs) (hne : v ≠ W.value) (hu : g.reads? u = some v)
    (hb : g.Rebodied u.instr body k)
    (hturn : ∀ al, g.alu? u.instr = some al → ∃ al', body.alu? = some al' ∧
      al.Turned vs W.value al')
    (hnone : g.alu? u.instr = none → body.alu? = none) (hsub : ∀ j ∈ rewired, j ∈ rewired')
    (hkept : u.instr ∉ rewired' → body.alu? = g.alu? u.instr) :
    Rewires f W vs tail rewired' k := by
  have halu : ∀ j, k.alu? j = if j = u.instr then body.alu? else g.alu? j := by
    intro j
    simp only [Function.alu?, hb.body]
    by_cases hj : j = u.instr <;> simp [hj]
  refine ⟨fun b => by rw [hb.flow, hr.flow], fun b => by rw [hb.blocks, hr.blocks],
    fun j b hj => by rw [hb.home, hr.home j b hj], fun j b hj => by rw [hb.dest, hr.dest j b hj],
    fun w s hw => by rw [hb.shape, hr.shape w s hw], fun j b hj hcalm => ?_,
    fun j b al hj hal => ?_, fun j b hj hal => ?_, fun j b hj hnot => ?_, hr.fresh,
    fun n hn => ?_⟩
  · have hju : j ≠ u.instr := by
      rintro rfl
      have hread := hr.reads hj hcalm u.slot
      exact hcalm u.slot v (hread.symm.trans hu) hmem
    rw [hb.body, if_neg hju, hr.body j b hj hcalm]
  · obtain ⟨al₁, hal₁, hturn₁⟩ := hr.turned j b al hj hal
    rw [halu]
    by_cases hju : j = u.instr
    · obtain ⟨al₂, hal₂, hturn₂⟩ := hturn al₁ (hju ▸ hal₁)
      exact ⟨al₂, by rw [if_pos hju, hal₂], hturn₁.trans hturn₂⟩
    · exact ⟨al₁, by rw [if_neg hju, hal₁], hturn₁⟩
  · have hold := hr.other j b hj hal
    rw [halu]
    split
    · rename_i hju
      exact hnone (hju ▸ hold)
    · exact hold
  · have hold := hr.kept j b hj fun hm => hnot (hsub j hm)
    rw [halu]
    by_cases hju : j = u.instr
    · rw [if_pos hju, hkept (hju ▸ hnot), ← hju, hold]
    · rw [if_neg hju, hold]
  · have hnu : n ≠ u.instr := by
      rintro rfl
      exact hne (hr.reads_copies hn hu)
    rw [hb.body, if_neg hnu]
    exact hr.copies n hn

theorem retested {k : Function} {b : BlockId} (hr : Rewires f W vs tail rewired g)
    (hb : g.Retested b v k) : Rewires f W vs tail rewired k := by
  have halu : k.alu? = g.alu? := by
    funext j
    simp only [Function.alu?, hb.body]
  refine ⟨fun b => by rw [hb.flow, hr.flow], ?_, ?_, ?_, ?_, ?_, ?_, ?_, ?_, hr.fresh, ?_⟩
  · rw [hb.blocks]
    exact hr.blocks
  · rw [hb.home]
    exact hr.home
  · rw [hb.dest]
    exact hr.dest
  · rw [hb.shape]
    exact hr.shape
  · rw [hb.body]
    exact hr.body
  · rw [halu]
    exact hr.turned
  · rw [halu]
    exact hr.other
  · rw [halu]
    exact hr.kept
  · rw [hb.body]
    exact hr.copies

theorem appended {k : Function} {anchor : InstrId} {o : Operand} {shape : Shape}
    (hr : Rewires f W vs tail rewired g) (hf : f.Placed) (hg : g.Placed) {c : BlockId}
    (hW : f.home? W.instr = some c) (hlast : (W.instr :: tail).getLast? = some anchor)
    (happ : g.Appended anchor n (.alu ⟨.mov, [o]⟩) shape v k) (ho : o.value = W.value) :
    Rewires f W vs (tail ++ [n]) rewired k := by
  have hnew : ∀ j b, f.home? j = some b → j ≠ n := fun j b hj => happ.ne_new (hr.home j b hj)
  have hbody : ∀ j b, f.home? j = some b → k.body? j = g.body? j := by
    intro j b hj
    rw [happ.body, if_neg (hnew j b hj)]
  obtain ⟨pre, post, hblock⟩ := List.append_of_mem (hf.mem_iff.mpr hW)
  have htrail := hr.trail hf hblock
  have hnd : (W.instr :: tail).Nodup := by
    have hnd := hg.nodup c
    rw [htrail, ← List.cons_append, List.nodup_append, List.nodup_append] at hnd
    exact hnd.2.1.1
  obtain ⟨init, hinit⟩ := List.getLast?_eq_some_iff.mp hlast
  have hmem : anchor ∈ W.instr :: tail := List.mem_of_getLast? hlast
  refine ⟨fun b => by rw [happ.flow, hr.flow], fun b => ?_,
    fun j b hj => happ.home_old (hr.home j b hj), fun j b hj => ?_,
    fun w s hw => happ.shape_old (hr.shape w s hw), fun j b hj hcalm => ?_,
    fun j b al hj hal => ?_, fun j b hj hal => ?_, fun j b hj hnot => ?_, fun m hm b hj => ?_,
    fun m hm => ?_⟩
  · rw [happ.blocks, hr.blocks, List.flatMap_assoc]
    refine List.flatMap_congr fun j hj => ?_
    by_cases hjw : j = W.instr
    · rw [if_pos hjw, if_pos hjw]
      rw [hinit] at hnd
      rw [← List.cons_append, hinit, Function.expand_split hnd]
      simp
    · have hja : j ≠ anchor := by
        rintro rfl
        rcases List.mem_cons.mp hmem with rfl | hm
        · exact hjw rfl
        · exact hr.fresh j hm b (hf.mem_iff.mp hj)
      rw [if_neg hjw, if_neg hjw, List.flatMap_singleton, if_neg hja]
  · rw [happ.dest, if_neg (hnew j b hj), hr.dest j b hj]
  · rw [hbody j b hj, hr.body j b hj hcalm]
  · rw [Function.alu?, hbody j b hj]
    exact hr.turned j b al hj hal
  · rw [Function.alu?, hbody j b hj]
    exact hr.other j b hj hal
  · rw [Function.alu?, hbody j b hj]
    exact hr.kept j b hj hnot
  · rcases List.mem_append.mp hm with hm | hm
    · exact hr.fresh m hm b hj
    · exact hnew m b hj (by simpa using hm)
  · rcases List.mem_append.mp hm with hm | hm
    · have hhome : g.home? m = some c := hg.mem_iff.mp (by simp [htrail, hm])
      rw [happ.body, if_neg (happ.ne_new hhome)]
      exact hr.copies m hm
    · obtain rfl : m = n := by simpa using hm
      exact ⟨o, by simp [happ.body], ho⟩

end Rewires

namespace Rewiring

variable {r r' mid : Rewiring} {hA hB : Half} {c : BlockId}

/-- What the steps so far have made of `f`. -/
structure Since (f : Function) (W : Wide) (vs : List ValueId) (tail : List InstrId)
    (r : Rewiring) : Prop where
  rewires : Rewires f W vs tail r.rewired r.func
  last : (W.instr :: tail).getLast? = some r.anchor

theorem Step.since (hs : Step W h r r') (hst : Steady W h r) (hmem : h.value ∈ vs) (hf : f.Placed)
    (hW : f.home? W.instr = some c) (hr : Since f W vs tail r) :
    ∃ tail', Since f W vs tail' r' := by
  cases hs with
  | @alu u al o read g hu hbody ho hread hg htidy =>
    have halu : r.func.alu? u.instr = some al := by simp [Function.alu?, hbody, Body.alu?]
    have hvalue : o.value = h.value := by
      simpa [Body.srcs, ho] using Function.srcs_of_reads hu hbody
    refine ⟨tail, hr.rewires.rebodied hmem hst.offers.ne hu hg ?_ (by simp [halu]) ?_ ?_, hr.last⟩
    · intro al' hal'
      obtain rfl := Option.some.inj (halu.symm.trans hal')
      exact ⟨_, rfl, .set ho (hvalue ▸ hmem)⟩
    · intro j hj
      split <;> simp [hj]
    · intro hnot
      split at hnot
      · rename_i hm
        exact absurd hm hnot
      · simp at hnot
  | @other u body v g hv hu hbody halu hg htidy =>
    have hnone : r.func.alu? u.instr = none := by simp [Function.alu?, hbody, halu]
    have hnone' : (body.mapSrcs fun s w => if s = u.slot then v else w).alu? = none :=
      (Body.alu?_mapSrcs_of_none halu).trans halu
    exact ⟨tail, hr.rewires.rebodied hmem hst.offers.ne hu hg (by simp [hnone])
      (fun _ => hnone') (fun _ hj => hj) fun _ => by rw [hnone, hnone'], hr.last⟩
  | @branch b v g hv hb hg htidy => exact ⟨tail, hr.rewires.retested hg, hr.last⟩
  | @copy n v o g hnone happ hvalue htake htidy =>
    refine ⟨tail ++ [n], hr.rewires.appended hf hst.tidy.linked.placed hW hr.last happ hvalue, ?_⟩
    rw [← List.cons_append, List.getLast?_concat]

theorem Steps.since (hs : Steps W h r r') (hst : Steady W h r) (hmem : h.value ∈ vs)
    (hf : f.Placed) (hW : f.home? W.instr = some c) (hr : Since f W vs tail r) :
    ∃ tail', Since f W vs tail' r' := by
  induction hs with
  | refl => exact ⟨tail, hr⟩
  | tail hs hstep ih =>
    obtain ⟨tail₁, hr₁⟩ := ih
    exact hstep.since (Steps.steady hs hst) hmem hf hW hr₁

theorem Since.start : Since f W vs [] ⟨f, W.instr, [], 0, none⟩ := ⟨.refl, rfl⟩

theorem Since.next (hr : Since f W vs tail r) : Since f W vs tail { r with copy := none } :=
  ⟨hr.rewires, hr.last⟩

theorem Turns.since (ht : Turns W hA hB f mid r) (hf : f.Tidy) (hv : f.Verified)
    (hoA : W.Offers f hA) (hoB : W.Offers f hB) (hmA : hA.value ∈ vs) (hmB : hB.value ∈ vs) :
    ∃ tail, Since f W vs tail r := by
  have hp := hf.linked.placed
  obtain ⟨c, hW⟩ := hoA.home
  obtain ⟨tail₁, hmid⟩ := ht.first.since (.start hf hv hoA) hmA hp hW .start
  exact ht.second.since (ht.steady hf hv hoA hoB).1 hmB hp hW hmid.next

variable [FloatOps]

theorem Step.evolves (hs : Step W h r r') (hst : Steady W h r)
    (hstands : W.Stands r.func a d h tail) (hlast : (W.instr :: tail).getLast? = some r.anchor) :
    r.func.Evolves r'.func := by
  have hcopy : ∀ v, r.copy = some v → r.anchor ∈ tail ∧ W.Copies r.func h r.anchor v := by
    intro v hv
    have hc := (hst.copy v hv).1
    refine ⟨?_, hc⟩
    rcases List.mem_cons.mp (List.mem_of_getLast? hlast) with he | hm
    · obtain ⟨o, hbody, -⟩ := hc.body
      have hmove := hstands.spans.notMove
      rw [he, hstands.spans.body, Option.some.injEq, Body.alu.injEq, Alu.mk.injEq] at hbody
      rw [hbody.1] at hmove
      exact Bool.noConfusion hmove
    · exact hm
  cases hs with
  | alu hu hbody ho hread hg htidy => exact hstands.turn_alu hu hbody ho hread hg htidy
  | other hv hu hbody halu hg htidy =>
    obtain ⟨hm, hc⟩ := hcopy _ hv
    exact hstands.turn_other hm hc hu hbody halu hg htidy
  | branch hv hb hg htidy =>
    obtain ⟨hm, hc⟩ := hcopy _ hv
    exact hstands.turn_branch hm hc hb hg htidy
  | copy _ happ hvalue htake htidy => exact hstands.turn_copy hlast happ htidy hvalue htake

theorem Steps.evolves (hs : Steps W h r r') (hst : Steady W h r) (hw : W.Ready f a d h vs)
    (hr : Since f W vs tail r) (hev : f.Evolves r.func) : f.Evolves r'.func := by
  have hp := hw.stands.ssa.tidy.linked.placed
  obtain ⟨c, hW⟩ := hw.stands.offers.home
  induction hs with
  | refl => exact hev
  | tail hs hstep ih =>
    obtain ⟨tail₁, hr₁⟩ := Steps.since hs hst hw.mem hp hW hr
    exact ih.trans (hstep.evolves (Steps.steady hs hst) (hr₁.rewires.stands ih hw) hr₁.last)

theorem Turns.evolves {e : InstrId} (ht : Turns W hA hB f mid r) (hwA : W.Ready f a d hA vs)
    (hwB : W.Ready f a e hB vs) : f.Evolves r.func := by
  have hssa := hwA.stands.ssa
  have hoA := hwA.stands.offers
  have hoB := hwB.stands.offers
  obtain ⟨c, hW⟩ := hoA.home
  have hstart : Steady W hA _ := .start hssa.tidy hssa.verified hoA
  obtain ⟨tail₁, hmid⟩ := ht.first.since hstart hwA.mem hssa.tidy.linked.placed hW .start
  have hev := ht.first.evolves hstart hwA .start hssa.refl
  exact ht.second.evolves (ht.steady hssa.tidy hssa.verified hoA hoB).1 hwB hmid.next hev

end Rewiring

end ShaderSSA
