import ShaderSSA.Proofs.Dropping
import ShaderSSA.Proofs.Reporting
import ShaderSSA.Proofs.VarMeaning

/-! Whether the split of variables leaves a deref that names no declared variable. It does not
exactly if no access to a variable that it drops is left over. -/

namespace ShaderSSA

/-- What a caller can do to variables. -/
inductive Variables.Reached : Variables → Prop
  | empty : Reached .empty
  | add {vars : Variables} (x : Variable) : Reached vars → Reached (vars.add x).2
  | modify {vars : Variables} (i : VarId) (g : Variable → Variable) : Reached vars →
      Reached (vars.modify i g)
  | drop {vars : Variables} (i : VarId) : Reached vars → Reached (vars.drop i)

theorem Variables.Reached.exists_of_declared {vars : Variables} {v : VarId} (h : vars.Reached)
    (hv : v ∈ vars.declared) : ∃ x, vars.get? v = some x := by
  induction h with
  | empty => simp [Variables.empty] at hv
  | @add vars x _ ih =>
    obtain ⟨hext, hnew⟩ := vars.extends_add x
    rcases List.mem_append.mp hv with hv | hv
    · obtain ⟨y, hy⟩ := ih hv
      exact ⟨y, hext v y hy⟩
    · exact ⟨x, by rw [List.mem_singleton.mp hv]; exact hnew⟩
  | modify i g _ ih =>
    obtain ⟨y, hy⟩ := ih hv
    simp only [Variables.get?, Variables.modify, Arena.get?_modify] at hy ⊢
    split
    · exact ⟨g y, by simp [hy]⟩
    · exact ⟨y, hy⟩
  | drop i _ ih => exact ih (List.mem_of_mem_filter hv)

theorem Variables.Reached.nodup_declared {vars : Variables} (h : vars.Reached) :
    vars.declared.Nodup := by
  induction h with
  | empty => exact List.nodup_nil
  | @add vars x hvars ih =>
    refine List.nodup_append.mpr ⟨ih, List.nodup_singleton _, fun v hv w hw hvw => ?_⟩
    obtain ⟨y, hy⟩ := hvars.exists_of_declared hv
    obtain rfl := hvw.trans (List.mem_singleton.mp hw)
    simp [Variables.get?, Arena.get?_size] at hy
  | modify i g _ ih => exact ih
  | drop i _ ih => exact ih.filter _

theorem Variables.declared_foldl_drop (vars : Variables) (l : List VarId) :
    (l.foldl Variables.drop vars).declared = vars.declared.filter (· ∉ l) := by
  induction l generalizing vars with
  | nil => simp
  | cons i l ih =>
    rw [List.foldl_cons, ih, Variables.drop, List.filter_filter]
    refine List.filter_congr fun v _ => ?_
    by_cases hv : v = i <;> simp [hv]

theorem Variables.mem_declared_foldl_drop {vars : Variables} {l : List VarId} {v : VarId} :
    v ∈ (l.foldl Variables.drop vars).declared ↔ v ∈ vars.declared ∧ v ∉ l := by
  simp [Variables.declared_foldl_drop]

theorem Splitting.mem_sources {t : Splitting} {v : VarId} :
    v ∈ t.sources ↔ ChannelBuild.Opened v t := by
  simp [Splitting.sources, ChannelBuild.Opened]

namespace Function

variable {f g f₀ : Function} {i j : InstrId} {v w : ValueId} {b : BlockId} {stage : Stage}
  {modes : Mode} {vars : Variables} {t t' : Splitting} {root : VarId} {a : Access}

theorem Chain.standing {x : Variable} {n : Nat} {type : VarType} (h : f.Chain root x n v type)
    (hf : f.Closed) (hv : f.Live v) : f.Standing root v := by
  induction h with
  | var hs hb =>
    obtain ⟨i, b, hi, hhome⟩ := hv
    obtain rfl := Option.some.inj (hs.symm.trans hi)
    exact .var hs (by simp [hhome]) hb
  | @element _ _ parent _ _ _ _ hs hb _ ih =>
    obtain ⟨i, b, hi, hhome⟩ := hv
    obtain rfl := Option.some.inj (hs.symm.trans hi)
    obtain ⟨slot, hslot⟩ := reads?_of_mem (v := parent) hhome hb (by simp [Body.srcs])
    exact .element hs (by simp [hhome]) hb (ih (hf.source _ _ hslot))

theorem VarReady.orderly (h : f.VarReady stage modes vars) (hapart : f.PlacesApart)
    (hf : f.Reached) (hv : f.Verified) : f.Orderly where
  small := hv.small hf.linked
  apart := hapart
  wide i b a hb ha hkind _ := by
    obtain ⟨-, -, -, v, root, x, n, type, hhead, -, hchain, -⟩ := h.access i b a hb ha hkind
    obtain ⟨slot, hslot⟩ := reads?_of_mem (v := v) hb ha (List.mem_of_getElem? hhead)
    exact ⟨v, root, hhead, hchain.standing hv.closed (hv.closed.source _ _ hslot)⟩

/-- An access that is left over keeps the chain it goes through. -/
theorem Through.standing (h : Through stage modes vars f₀ t f) (hf₀ : f₀.Reached)
    (hv : f₀.Standing root v) (hb : f₀.home? i = some b) (ha : f₀.body? i = some (.access a))
    (hhead : a.srcs[0]? = some v) (hi : f₀.SmallAt i) {x : Variable}
    (hx : vars.get? root = some x) (hnot : ¬ f₀.Splits stage modes vars i a v root)
    (hd : Relation.ReflTransGen DropsDeref f g) : g.Standing root v := by
  have hlive : f.home? i = some b := by
    refine (h.live i b hb).resolve_right ?_
    rintro ⟨-, a', ha', -, hsplits⟩
    obtain rfl : a' = a := by simpa [ha'] using ha
    exact hnot (hsplits v root x hhead (hv.mono fun _ _ => trivial) hx)
  obtain ⟨y, hy⟩ := hasValue_iff.mp (hasValue_of_isPlace hv.isPlace)
  have huses : f₀.uses? v = some y.uses := by simp [uses?, hy]
  have hread : f₀.reads? ⟨i, 0⟩ = some v := reads?_iff.mpr ⟨b, _, hb, ha, hhead⟩
  have hmem := ((hf₀.linked.recordedBy i hi).mem_iff huses).mpr hread
  obtain ⟨us, hus, hsub⟩ := h.uses v y.uses hv.isPlace huses
  have hu : (⟨i, 0⟩ : Use) ∈ us := by
    refine (hsub _ hmem).resolve_right ?_
    rintro ⟨hnone, -⟩
    simp [hlive] at hnone
  obtain ⟨srcs, hbody, -⟩ := h.access ha
  exact standing_of_drops h.reached.linked (h.toUnderway.standing hv) hus hu hbody hd

/-- A deref of the start that is left over in the end defines a value, and the value is read. -/
theorem Underway.exists_reader (h : Underway stage modes vars f₀ t f) (hf₀ : f₀.Reached)
    (hd : Relation.ReflTransGen DropsDeref f g) (hnone : g.deadDerefs = []) {d : Deref}
    (hi : f₀.body? i = some (.deref d)) (hb : g.home? i = some b) : ∃ v, f₀.source? v = some i ∧
      ((∃ us u, g.uses? v = some us ∧ u ∈ us) ∨ ∃ bs c, g.branches? v = some bs ∧ c ∈ bs) := by
  obtain ⟨S, hshed⟩ := shed_of_drops hd
  obtain ⟨step, hstep⟩ := h.deref_body hi
  obtain ⟨v, hv, hread⟩ := Function.exists_reader (linked_of_drops h.reached.linked hd).placed hnone
    hb (by rw [hshed.body, hstep])
  rw [hshed.dest, h.dest i _ hi] at hv
  exact ⟨v, (hf₀.linked.defined.iff i v).mp hv, hread⟩

/-- Where every access through the chains of a variable has been taken apart, the sweep takes all
its derefs. -/
theorem Through.swept (h : Through stage modes vars f₀ t f) (hf₀ : f₀.Reached) (ho : f₀.Orderly)
    (hfade : f₀.Fading f)
    (hsplits : ∀ v i b a, f₀.Standing root v → f₀.home? i = some b →
      f₀.body? i = some (.access a) → a.kind.isDerefAccess → a.srcs[0]? = some v →
      f₀.Splits stage modes vars i a v root)
    (hd : Relation.ReflTransGen DropsDeref f g) (hnone : g.deadDerefs = [])
    (hv : f₀.Standing root v) (hj : f₀.source? v = some j) : g.home? j = none := by
  by_contra hlive
  obtain ⟨S, hshed⟩ := shed_of_drops hd
  have hlinked := linked_of_drops h.reached.linked hd
  -- Among the derefs that are left over, take one with none of the others on top of it.
  obtain ⟨w, ⟨hw, k, hk, hklive⟩, htop⟩ := exists_top
    (S := fun w => f₀.Standing root w ∧ ∃ k, f₀.source? w = some k ∧ g.home? k ≠ none)
    (fun w hw => hw.1) ⟨hv, j, hj, hlive⟩
  obtain ⟨c, hc⟩ := Option.ne_none_iff_exists'.mp hklive
  obtain ⟨k', d, hk', -, hd₀⟩ := hw.source
  obtain rfl : k' = k := by simpa [hk'] using hk
  obtain ⟨z, hz, hread⟩ := h.exists_reader hf₀ hd hnone hd₀ hc
  obtain rfl : z = w := by
    have hdest := (hf₀.linked.defined.iff k' w).mpr hk'
    simpa [(hf₀.linked.defined.iff k' z).mpr hz] using hdest
  obtain ⟨x, hx⟩ := hasValue_iff.mp (hasValue_of_isPlace hw.isPlace)
  rcases hread with ⟨us, u, hus, hu⟩ | ⟨bs, e, hbs, he⟩
  · obtain ⟨us₁, hus₁, hsub⟩ := hshed.uses_before hus
    have huses : f₀.uses? z = some x.uses := by simp [uses?, hx]
    have hmem := hfade z x.uses us₁ hw.isPlace huses hus₁ u (hsub hu)
    have hread₀ := ((hf₀.linked.recorded ho.small).mem_iff huses).mp hmem
    obtain ⟨e, body, he, hbody, hsrc⟩ := reads?_iff.mp hread₀
    have hlive : ∃ e, g.home? u.instr = some e := by
      have hsmall : g.SmallAt u.instr := by
        have := h.smallAt (ho.small u.instr) hbody
        rwa [SmallAt, srcs?_eq_map, ← hshed.body, ← srcs?_eq_map] at this
      obtain ⟨e, -, he, -⟩ :=
        reads?_iff.mp (((hlinked.recordedBy u.instr hsmall).mem_iff hus).mp hu)
      exact ⟨e, he⟩
    obtain ⟨e', he'⟩ := hlive
    obtain ⟨hslot, hplace⟩ := Body.isPlaceSlot_zero
      (ho.apart.reads u.instr e body he hbody u.slot z hsrc hw.isPlace)
    rw [hslot] at hsrc
    cases body with
    | deref d' =>
      obtain ⟨step, mode, type⟩ := d'
      cases step with
      | var _ => simp [Body.srcs] at hsrc
      | element parent index =>
        obtain rfl : parent = z := by simpa [Body.srcs] using hsrc
        obtain ⟨y, hy, -⟩ := h.exists_reader hf₀ hd hnone hbody he'
        refine htop y ⟨.element hy (by simp [he]) hbody hw, u.instr, hy, by simp [he']⟩ ?_
        exact derefParent_eq_ok.mpr ⟨index, mode, type, deref_eq_ok hy hbody⟩
    | access a =>
      have hkind : a.kind.isDerefAccess := by simpa [Body.isPlaceSlot] using hplace
      have hs := hsplits z u.instr e a hw he hbody hkind hsrc
      have hgone := (h.gone u.instr e a z root he hs (ho.small u.instr)).1
      simp [hshed.home_before he'] at hgone
    | _ => simp [Body.isPlaceSlot] at hplace
  · rw [hshed.branches, h.branches z hw.isPlace] at hbs
    have hcond := (hf₀.linked.branches.mem_iff hbs).mp he
    have := ho.apart.conditions e z hcond
    simp [hw.isPlace] at this

end Function

theorem Body.root?_eq_some {body : Body} {v : VarId} (h : body.root? = some v) :
    ∃ mode type, body = .deref ⟨.var v, mode, type⟩ := by
  rcases body with _ | _ | ⟨⟨_ | _, mode, type⟩⟩ | _ | _ <;> simp [Body.root?] at h
  exact ⟨mode, type, by rw [h]⟩

theorem forall₂_of_mapM {α β : Type} {m : α → Checked β} {l : List α} {l' : List β}
    (h : l.mapM m = .ok l') : List.Forall₂ (fun a b => m a = .ok b) l l' := by
  induction l generalizing l' with
  | nil =>
    cases h
    exact .nil
  | cons a l ih =>
    simp only [List.mapM_cons, bind_eq_ok] at h
    obtain ⟨b, hb, bs, hbs, h⟩ := h
    cases h
    exact .cons hb (ih hbs)

namespace Shader

variable {s s' : Shader} {modes : Mode} {stats : SplitStats} {t : Splitting}
  {gs ks : List Function}

/-- Every deref of a variable that is not removed names a declared one. -/
def RootsDeclared (s : Shader) : Prop := ∀ f ∈ s.functions, f.RootsDeclared s.vars

/-- Some access to the variable is taken apart and reaches a channel of it. -/
def Drops (s : Shader) (modes : Mode) (v : VarId) : Prop :=
  ∃ f ∈ s.functions, ∃ i b a w, f.home? i = some b ∧ f.Splits s.stage modes s.vars i a w v ∧
    a.srcs.length ≤ 256 ∧ a.Emits

/-- Every access to a variable that is dropped is taken apart. -/
def SplitsWholly (s : Shader) (modes : Mode) : Prop :=
  ∀ f ∈ s.functions, ∀ v w i b a, s.Drops modes v → f.Standing v w → f.home? i = some b →
    f.body? i = some (.access a) → a.kind.isDerefAccess → a.srcs[0]? = some w →
    a.srcs.length ≤ 256 → f.Splits s.stage modes s.vars i a w v

theorem splitVars_run (h : s.splitVars modes = .ok (stats, s')) : ∃ gs t,
    (s.functions.mapM (Function.splitVars s.stage modes)).run ⟨s.vars, [], .zero⟩ = .ok (gs, t) ∧
    List.Forall₂ (fun f g => f.sweepDerefs = .ok g) gs s'.functions ∧ s'.stage = s.stage ∧
    s'.vars = t.sources.foldl Variables.drop t.vars ∧
    stats = { t.stats with vars := t.sources.length } := by
  obtain ⟨⟨gs, t⟩, hgs, h⟩ := bind_eq_ok.mp h
  obtain ⟨⟨swept, k⟩, hk, h⟩ := bind_eq_ok.mp h
  cases h
  obtain ⟨ks, hks, hk⟩ := bind_eq_ok.mp hk
  cases hk
  exact ⟨gs, t, hgs, forall₂_of_mapM hks, rfl, rfl, rfl⟩

theorem splitVars_eq_ok (h : s.splitVars modes = .ok (stats, s')) : ∃ gs t,
    (s.functions.mapM (Function.splitVars s.stage modes)).run ⟨s.vars, [], .zero⟩ = .ok (gs, t) ∧
    List.Forall₂ (fun f g => f.sweepDerefs = .ok g) gs s'.functions ∧
    ∀ v, v ∈ s'.vars.declared ↔ v ∈ t.vars.declared ∧ ¬ ChannelBuild.Opened v t := by
  obtain ⟨gs, t, hgs, hsweep, -, hvars, -⟩ := splitVars_run h
  refine ⟨gs, t, hgs, hsweep, fun v => ?_⟩
  rw [hvars, Variables.mem_declared_foldl_drop, Splitting.mem_sources]

theorem since_start (s : Shader) : (⟨s.vars, [], .zero⟩ : Splitting).Since s.vars :=
  ⟨.refl _, fun _ h => h, by simp⟩

theorem splitsWholly_of_rootsDeclared (hf : ∀ f ∈ s.functions, f.Reached)
    (h : s.splitVars modes = .ok (stats, s')) (hroots : s'.RootsDeclared) :
    s.SplitsWholly modes := by
  obtain ⟨gs, t, hgs, hsweep, hdeclared⟩ := splitVars_eq_ok h
  obtain ⟨-, -, -, hall⟩ := Function.mapM_splitVars_through (G := fun _ => True)
    (A := fun _ _ => True) hf s.since_start trivial (fun _ _ => trivial)
    (fun _ _ _ _ _ _ _ _ _ _ _ _ _ _ => ⟨trivial, trivial⟩) hgs
  intro f hmem v w i b a hdrops hstand hb ha hkind hhead hsmall
  by_contra hnot
  obtain ⟨f', hmem', i', b', a', w', hb', hs', hsmall', hemits⟩ := hdrops
  have hopen : ChannelBuild.Opened v t := by
    obtain ⟨g', -, hthrough, -⟩ := exists_of_forall₂ hall.flip hmem'
    exact (hthrough.gone i' b' a' w' v hb' hs' ((Function.smallAt_access hs'.body).mpr hsmall')).2
      hemits
  obtain ⟨g, hg, hthrough, -⟩ := exists_of_forall₂ hall.flip hmem
  obtain ⟨k, hk, hgk⟩ := exists_of_forall₂ hsweep.flip hg
  obtain ⟨x, hx, -⟩ := hs'.var
  have hdrops := (Function.sweepWithin_drops hgk).1
  have hleft := hthrough.standing (hf f hmem) hstand hb ha hhead
    ((Function.smallAt_access ha).mpr hsmall) hx hnot hdrops
  obtain ⟨j, body, hj, hbody, hroot⟩ := hleft.exists_root
  obtain ⟨c, hc⟩ := Option.isSome_iff_exists.mp hj
  exact ((hdeclared v).mp (hroots k hk j c body v hc hbody hroot)).2 hopen

/-- One visit: a new channel belongs to a variable that is dropped, and nothing comes to read a
deref of the start. -/
theorem splitVarInstr_fading {f₀ f g : Function} {i : InstrId} {b : BlockId} {t' : Splitting}
    (hvars : s.vars.Reached) (hroots : s.RootsDeclared) (hmem : f₀ ∈ s.functions)
    (hf₀ : f₀.Reached) (ho : f₀.Orderly)
    (hu : Function.Underway s.stage modes s.vars f₀ t f) (ht : t.Since s.vars)
    (hdrops : ∀ c ∈ t.channels, s.Drops modes c.source) (hfade : f₀.Fading f)
    (hi : f.home? i = some b)
    (hrun : (Function.splitVarInstr s.stage modes f i).run t = .ok (g, t')) :
    (∀ c ∈ t'.channels, s.Drops modes c.source) ∧ f₀.Fading g := by
  rcases Function.splitVarInstr_cases hrun with ⟨rfl, rfl, -⟩ | ⟨a, v, root, hs, hapart⟩
  · exact ⟨hdrops, hfade⟩
  obtain ⟨hsmall, -⟩ := hu.takesApart ht.kept hs hapart
  obtain ⟨a₀, ha₀⟩ := hu.access_of_splits hs
  have hi₀ := hu.old i b _ ha₀ hi
  obtain ⟨srcs, hbody, -⟩ := hu.access ha₀
  obtain rfl : a = { a₀ with srcs } := by simpa [hs.body] using hbody
  obtain ⟨v₀, root₀, hhead, hstand⟩ := ho.wide i b a₀ hi₀ ha₀ hs.kind hs.wide
  obtain ⟨j, body, hj, hjb, hroot⟩ := hstand.exists_root
  obtain ⟨c, hc⟩ := Option.isSome_iff_exists.mp hj
  obtain ⟨x, hx⟩ := hvars.exists_of_declared (hroots f₀ hmem j c body root₀ hc hjb hroot)
  obtain ⟨rfl, rfl, -, hs₀⟩ := hu.splits_start hs ha₀ hsmall ht.kept hhead
    (hstand.mono fun _ _ => trivial) hx
  refine ⟨fun c hc => ?_, hfade.takesApart hu hf₀ ho hi hs hsmall (hu.standing hstand) hapart⟩
  rcases hapart.channels.2 c hc with hc | ⟨rfl, hemits⟩
  · exact hdrops c hc
  · exact ⟨f₀, hmem, i, b, a₀, v, hi₀, hs₀, (Function.smallAt_access ha₀).mp hsmall, hemits⟩

theorem rootsDeclared_of_splitsWholly (hf : ∀ f ∈ s.functions, f.Reached) (hvars : s.vars.Reached)
    (hroots : s.RootsDeclared) (h : s.splitVars modes = .ok (stats, s'))
    (ho : ∀ f ∈ s.functions, f.Orderly) (hwhole : s.SplitsWholly modes) : s'.RootsDeclared := by
  obtain ⟨gs, t, hgs, hsweep, hdeclared⟩ := splitVars_eq_ok h
  obtain ⟨ht, hdrops, -, hall⟩ := Function.mapM_splitVars_through
    (G := fun t => ∀ c ∈ t.channels, s.Drops modes c.source) (A := Function.Fading) hf
    s.since_start (by simp) (fun f _ => .refl f)
    (fun f₀ hmem t f i b t' g hu ht hG hA hi hrun =>
      splitVarInstr_fading hvars hroots hmem (hf f₀ hmem) (ho f₀ hmem) hu ht hG hA hi hrun) hgs
  have hopened : ∀ v, ChannelBuild.Opened v t → s.Drops modes v := by
    rintro v ⟨c, hc, rfl⟩
    exact hdrops c hc
  intro k hk i b body v hb hbody hroot
  obtain ⟨g, hg, hgk⟩ := exists_of_forall₂ hsweep hk
  obtain ⟨f, hmem, hthrough, hfade⟩ := exists_of_forall₂ hall hg
  obtain ⟨hsteps, hnone⟩ := Function.sweepWithin_drops hgk
  obtain ⟨S, hshed⟩ := Function.shed_of_drops hsteps
  rw [hshed.body] at hbody
  rw [hdeclared]
  cases hb₀ : f.body? i with
  | none =>
    obtain ⟨c, hc, rfl⟩ := (hthrough.new i body hb₀ hbody).2 v hroot
    obtain ⟨hd, hfresh⟩ := ht.fresh c hc
    refine ⟨hd, fun hopen => ?_⟩
    obtain ⟨_, _, _, _, _, _, _, hs, -⟩ := hopened _ hopen
    obtain ⟨x, hx, -⟩ := hs.var
    simp [hfresh] at hx
  | some body₀ =>
    obtain ⟨ρ, hρ, -⟩ := hthrough.body i body₀ hb₀
    obtain rfl : body₀.mapSrcs ρ = body := by simpa [hρ] using hbody
    obtain ⟨mode, type, hbody₀⟩ := Body.root?_eq_some hroot
    have hroot₀ : body₀ = .deref ⟨.var v, mode, type⟩ := by
      rcases body₀ with _ | _ | ⟨⟨_ | _, _, _⟩⟩ | _ | _ <;> simp [Body.mapSrcs] at hbody₀
      obtain ⟨rfl, rfl, rfl⟩ := hbody₀
      rfl
    have hi := hthrough.old i b body₀ hb₀ (hshed.home_before hb)
    refine ⟨ht.declared v (hroots f hmem i b body₀ v hi hb₀ (by rw [hroot₀]; rfl)), fun hopen => ?_⟩
    rw [hroot₀] at hb₀
    obtain ⟨w, hw, -⟩ := hthrough.exists_reader (hf f hmem) hsteps hnone hb₀ hb
    have hstand : f.Standing v w := .var hw (by simp [hi]) hb₀
    have hgone := hthrough.swept (hf f hmem) (ho f hmem) hfade
      (fun w i b a hstand hb ha hkind hhead => hwhole f hmem v w i b a (hopened v hopen) hstand hb
        ha hkind hhead ((Function.smallAt_access ha).mp ((ho f hmem).small i)))
      hsteps hnone hstand hw
    simp [hb] at hgone

/-- When the split leaves no deref of a variable that is not declared: it takes every access to the
variables it drops apart, and where derefs are read only as derefs this is enough. -/
theorem rootsDeclared_after_splitVars (hf : ∀ f ∈ s.functions, f.Reached) (hvars : s.vars.Reached)
    (hroots : s.RootsDeclared) (h : s.splitVars modes = .ok (stats, s')) :
    (s'.RootsDeclared → s.SplitsWholly modes) ∧
      ((∀ f ∈ s.functions, f.Orderly) → s.SplitsWholly modes → s'.RootsDeclared) :=
  ⟨splitsWholly_of_rootsDeclared hf h, rootsDeclared_of_splitsWholly hf hvars hroots h⟩

end Shader

instance (f : Function) (vars : Variables) : Decidable (f.RootsDeclared vars) :=
  decidable_of_iff (∀ i ∈ f.instrs.ids, (f.home? i).isSome → ∀ body ∈ f.body? i,
    ∀ v ∈ body.root?, v ∈ vars.declared) <| by
    rw [f.forall_body_iff fun _ body => ∀ v ∈ body.root?, v ∈ vars.declared]
    exact ⟨fun h i b body v hb hbody => h i b body hb hbody v,
      fun h i b body hb hbody v => h i b body v hb hbody⟩

instance (s : Shader) : Decidable s.RootsDeclared :=
  inferInstanceAs (Decidable (∀ f ∈ s.functions, f.RootsDeclared s.vars))

theorem rootsDeclared_after_splitVars_arrayShader :
    (Edit.outcome arrayEdits).Reached ∧ arrayVars.Reached ∧ arrayShader.RootsDeclared ∧
      (Edit.outcome arrayEdits).Orderly ∧
      ∃ stats s', arrayShader.splitVars .inOut = .ok (stats, s') ∧
        arrayShader.SplitsWholly .inOut ∧ s'.RootsDeclared := by
  have hreached := Function.Reached.outcome arrayEdits
  have hvars : arrayVars.Reached := .add _ (.add _ .empty)
  have hroots : arrayShader.RootsDeclared := by decide +kernel
  have hready : (Edit.outcome arrayEdits).VarReady .fragment .inOut arrayVars := by decide +kernel
  have horderly : (Edit.outcome arrayEdits).Orderly :=
    hready.orderly (by decide +kernel) hreached (Function.verified_of_check hreached.linked rfl)
  have hafter : (arrayShader.splitVars .inOut).toOption.any (decide ·.2.RootsDeclared) = true := by
    decide +kernel
  cases hrun : arrayShader.splitVars .inOut with
  | error e => simp [hrun, Except.toOption] at hafter
  | ok r =>
    obtain ⟨stats, s'⟩ := r
    obtain ⟨hneeds, hsuffices⟩ := Shader.rootsDeclared_after_splitVars
      (by simpa [arrayShader] using hreached) hvars hroots hrun
    have hwhole := hneeds (by simpa [hrun, Except.toOption] using hafter)
    exact ⟨hreached, hvars, hroots, horderly, stats, s', rfl, hwhole,
      hsuffices (by simpa [arrayShader] using horderly) hwhole⟩

/-- An output that is stored to as a whole, and then its first channel alone. -/
def leftoverEdits : List Edit :=
  [.insert (.stop ⟨0⟩) (.deref ⟨.var ⟨0⟩, .shaderOut, .vector .float 32 4⟩) (some ⟨1, 32⟩),
    .insert (.stop ⟨0⟩) (.const [0, 0, 0, 0]) (some ⟨4, 32⟩),
    .insert (.stop ⟨0⟩) (.access ⟨.storeDeref, 4, [⟨0⟩, ⟨1⟩], 0, 0, 15⟩) none,
    .insert (.stop ⟨0⟩) (.const [0]) (some ⟨1, 32⟩),
    .insert (.stop ⟨0⟩) (.access ⟨.storeDeref, 1, [⟨0⟩, ⟨2⟩], 0, 0, 1⟩) none]

def leftoverShader : Shader := ⟨.fragment, colorVars, [Edit.outcome leftoverEdits]⟩

/-- The store to one channel is left over, and its deref names a variable that was dropped. -/
theorem leftoverShader_undeclared :
    (Edit.outcome leftoverEdits).Reached ∧ colorVars.Reached ∧ leftoverShader.RootsDeclared ∧
      ∃ stats s', leftoverShader.splitVars .inOut = .ok (stats, s') ∧ ¬ s'.RootsDeclared := by
  have hroots : leftoverShader.RootsDeclared := by decide +kernel
  have hafter : (leftoverShader.splitVars .inOut).toOption.any (!decide ·.2.RootsDeclared) =
      true := by decide +kernel
  cases hrun : leftoverShader.splitVars .inOut with
  | error e => simp [hrun, Except.toOption] at hafter
  | ok r =>
    obtain ⟨stats, s'⟩ := r
    exact ⟨Function.Reached.outcome leftoverEdits, .add _ .empty, hroots, stats, s', rfl,
      by simpa [hrun, Except.toOption] using hafter⟩

end ShaderSSA
