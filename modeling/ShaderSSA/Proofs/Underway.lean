import ShaderSSA.Proofs.Readiness
import ShaderSSA.Proofs.Shedding
import ShaderSSA.Proofs.SplitMoves

/-! A function on its way through the split of its variables. Derefs stay where they are and lead
where they led, an access that goes through a chain is taken apart or not by what it was at the
start, and whatever reads a deref goes on doing so until it is taken apart. -/

namespace ShaderSSA

namespace Function

variable {f g f₀ : Function} {i j : InstrId} {v w : ValueId} {b : BlockId} {stage : Stage}
  {modes : Mode} {vars : Variables} {t t' : Splitting} {root : VarId}

theorem isPlace_iff : f.isPlace v ↔ ∃ i d, f.source? v = some i ∧ f.body? i = some (.deref d) := by
  constructor
  · intro h
    obtain ⟨body, hbody, hd⟩ := (Option.any_eq_true _ _).mp h
    obtain ⟨i, hi, hb⟩ := Option.bind_eq_some_iff.mp hbody
    obtain ⟨d, hd⟩ := Option.isSome_iff_exists.mp hd
    exact ⟨i, d, hi, by rw [hb, Body.deref?_eq_some.mp hd]⟩
  · rintro ⟨i, d, hi, hb⟩
    rw [isPlace_eq hi hb]
    rfl

theorem hasValue_of_isPlace (h : f.isPlace v) : f.hasValue v := by
  obtain ⟨i, -, hi, -⟩ := isPlace_iff.mp h
  exact hasValue_of_source hi

theorem Rooted.isPlace {P : InstrId → Prop} (h : f.Rooted P root v) : f.isPlace v := by
  cases h with
  | var hs _ hb => exact isPlace_iff.mpr ⟨_, _, hs, hb⟩
  | element hs _ hb _ => exact isPlace_iff.mpr ⟨_, _, hs, hb⟩

theorem Rooted.unique {P P' : InstrId → Prop} {root' : VarId} (h : f.Rooted P root v)
    (h' : f.Rooted P' root' v) : root' = root := by
  induction h with
  | var hs _ hb =>
    cases h' with
    | var hs' _ hb' => simp_all
    | element hs' _ hb' _ => simp_all
  | element hs _ hb _ ih =>
    cases h' with
    | var hs' _ hb' => simp_all
    | element hs' _ hb' hp =>
      obtain rfl := Option.some.inj (hs.symm.trans hs')
      rw [hb] at hb'
      simp only [Option.some.injEq, Body.deref.injEq, Deref.mk.injEq,
        DerefStep.element.injEq] at hb'
      obtain ⟨⟨rfl, rfl⟩, -, -⟩ := hb'
      exact ih hp

/-- The chain consists of derefs that are not removed. -/
def Standing (f : Function) : VarId → ValueId → Prop := f.Rooted fun i => (f.home? i).isSome

/-- The recorded readers of `v` read `w`. -/
structure Handed (f : Function) (v w : ValueId) (g : Function) : Prop where
  source : g.source? = f.source?
  home : g.home? = f.home?
  dest : g.dest? = f.dest?
  body : ∃ us, f.uses? v = some us ∧ ∀ j, g.body? j =
    (f.body? j).map fun body => body.mapSrcs fun s x => if ⟨j, s⟩ ∈ us then w else x
  uses : ∀ x, x ≠ v → x ≠ w → g.uses? x = f.uses? x
  branches : ∀ x, x ≠ v → x ≠ w → g.branches? x = f.branches? x

theorem handed_of_replaceUses (h : f.replaceUses v w = .ok g) : f.Handed v w g := by
  obtain ⟨-, x, y, hx, -, -, rfl⟩ := replaceUses_eq_ok.mp h
  refine ⟨source?_mapValues ?_, ?_, ?_, ⟨x.uses, by simp [uses?, hx], fun j => ?_⟩,
    fun z hv hw => ?_, fun z hv hw => ?_⟩
  · intro z k
    split_ifs <;> rfl
  · have hhome := home?_redirect f fun u z => if u ∈ x.uses then w else z
    exact hhome
  · have hdest := dest?_redirect f fun u z => if u ∈ x.uses then w else z
    exact hdest
  · have hbody := body?_redirect f (fun u z => if u ∈ x.uses then w else z) j
    exact hbody
  · simp only [uses?, mapValues, mapBlocks, values_redirect, Arena.get?_mapIds, hv, hw, if_false,
      Option.map_id']
  · simp only [branches?, mapValues, mapBlocks, values_redirect, Arena.get?_mapIds, hv, hw,
      if_false, Option.map_id']

/-- An access that is split if it goes through a chain to a variable. -/
def Eligible (stage : Stage) (modes : Mode) (vars : Variables) (f : Function) (i : InstrId) :
    Prop :=
  ∃ a, f.body? i = some (.access a) ∧ f.SmallAt i ∧ ∀ v root x, a.srcs[0]? = some v →
    f.Rooted (fun _ => True) root v → vars.get? root = some x →
    f.Splits stage modes vars i a v root

/-- What the split has made of `f₀` so far. -/
structure Underway (stage : Stage) (modes : Mode) (vars : Variables) (f₀ : Function)
    (t : Splitting) (f : Function) : Prop where
  reached : f.Reached
  source : ∀ v j, f₀.source? v = some j → f.source? v = some j
  body : ∀ j body, f₀.body? j = some body → ∃ ρ : Nat → ValueId → ValueId,
    f.body? j = some (body.mapSrcs ρ) ∧
    (f₀.SmallAt j → ∀ s v, body.srcs[s]? = some v → f₀.isPlace v → ρ s v = v)
  live : ∀ j b, f₀.home? j = some b → f.home? j = some b ∨
    f.home? j = none ∧ f₀.Eligible stage modes vars j
  old : ∀ j b body, f₀.body? j = some body → f.home? j = some b → f₀.home? j = some b
  dest : ∀ j body, f₀.body? j = some body → f.dest? j = f₀.dest? j
  new : ∀ j body, f₀.body? j = none → f.body? j = some body →
    body.isWide = false ∧ ∀ v, body.root? = some v → ∃ c ∈ t.channels, c.var = v
  uses : ∀ v us, f₀.isPlace v → f₀.uses? v = some us → ∃ us', f.uses? v = some us' ∧
    ∀ u ∈ us, u ∈ us' ∨ f.home? u.instr = none ∧ ∃ body, f₀.body? u.instr = some body
  branches : ∀ v, f₀.isPlace v → f.branches? v = f₀.branches? v

namespace Underway

theorem refl (hf : f.Reached) (t : Splitting) : Underway stage modes vars f t f where
  reached := hf
  source _ _ h := h
  body j body h := ⟨fun _ v => v, by rw [h, Body.mapSrcs_id], fun _ _ _ _ _ => rfl⟩
  live _ _ h := .inl h
  old _ _ _ _ h := h
  dest _ _ _ := rfl
  new j body h h' := by simp [h] at h'
  uses v us _ h := ⟨us, h, fun u hu => .inl hu⟩
  branches _ _ := rfl

variable (h : Underway stage modes vars f₀ t f)

include h

theorem mono (ht : ∀ c ∈ t.channels, c ∈ t'.channels) : Underway stage modes vars f₀ t' f where
  reached := h.reached
  source := h.source
  body := h.body
  live := h.live
  old := h.old
  dest := h.dest
  new j body hj hbody := by
    obtain ⟨hw, hroot⟩ := h.new j body hj hbody
    refine ⟨hw, fun v hv => ?_⟩
    obtain ⟨c, hc, hcv⟩ := hroot v hv
    exact ⟨c, ht c hc, hcv⟩
  uses := h.uses
  branches := h.branches

theorem hasValue (hv : f₀.hasValue v) : f.hasValue v := by
  obtain ⟨j, hj⟩ := exists_source hv
  exact hasValue_of_source (h.source v j hj)

theorem absent (hj : f.body? j = none) : f₀.body? j = none := by
  refine Option.eq_none_iff_forall_ne_some.mpr fun body hb => ?_
  obtain ⟨ρ, hρ, -⟩ := h.body j body hb
  simp [hj] at hρ

theorem home_none {body : Body} (hb : f₀.body? j = some body) (hj : f₀.home? j = none) :
    f.home? j = none := by
  refine Option.eq_none_iff_forall_ne_some.mpr fun b hb' => ?_
  simp [h.old j b body hb hb'] at hj

theorem access_start {body : Body} {a : Access} (hb : f₀.body? j = some body)
    (ha : f.body? j = some (.access a)) : ∃ a₀, body = .access a₀ := by
  obtain ⟨ρ, hρ, -⟩ := h.body j body hb
  obtain ⟨a₀, rfl, -⟩ := Body.mapSrcs_eq_access.mp (Option.some.inj (hρ.symm.trans ha))
  exact ⟨a₀, rfl⟩

theorem smallAt (hj : f₀.SmallAt j) {body : Body} (hb : f₀.body? j = some body) :
    f.SmallAt j := by
  obtain ⟨ρ, hρ, -⟩ := h.body j body hb
  intro vs hvs
  rw [srcs?_eq_map, hρ] at hvs
  obtain rfl := Option.some.inj hvs
  rw [Body.length_srcs_mapSrcs]
  exact hj body.srcs (by rw [srcs?_eq_map, hb]; rfl)

theorem insert {c : Cursor} {body : Body} {dest : Option Shape} {n : InstrId}
    {May : ValueId → Prop} (hi : f.insert c body dest = .ok (n, g))
    (hp : body.Piece root May t) : Underway stage modes vars f₀ t g := by
  have hreached : g.Reached := h.reached.apply (e := .insert c body dest) (by simp [Edit.apply, hi])
  have hkept := kept_of_insert hi
  obtain ⟨b, pos, -, -, -, -, rfl, rfl⟩ := insert_eq_ok.mp hi
  have hold : ∀ j y, f₀.body? j = some y → j ≠ ⟨f.instrs.size⟩ := by
    rintro j y hy rfl
    obtain ⟨ρ, hρ, -⟩ := h.body _ y hy
    simp [body?, Arena.get?_size] at hρ
  have hplace : ∀ v, f₀.isPlace v → v ≠ ⟨f.values.size⟩ :=
    fun v hv => ne_of_hasValue (h.hasValue (hasValue_of_isPlace hv))
  refine ⟨hreached, fun v j hj => hkept.source v j (h.source v j hj), ?_, ?_, ?_, ?_, ?_, ?_, ?_⟩
  · intro j y hy
    obtain ⟨ρ, hρ, hsmall⟩ := h.body j y hy
    exact ⟨ρ, by rw [body?_inserted, if_neg (hold j y hy), hρ], hsmall⟩
  · intro j d hj
    obtain ⟨x, hx, -⟩ := home?_eq_some.mp hj
    have hne := hold j x.body (by simp [body?, hx])
    rw [home?_inserted, if_neg hne]
    exact h.live j d hj
  · intro j d y hy hj
    rw [home?_inserted, if_neg (hold j y hy)] at hj
    exact h.old j d y hy hj
  · intro j y hy
    rw [dest?_inserted, if_neg (hold j y hy), h.dest j y hy]
  · intro j y hj hy
    rw [body?_inserted] at hy
    split at hy
    · obtain rfl := Option.some.inj hy
      refine ⟨hp.narrow, fun v hv => ?_⟩
      obtain ⟨c, hc, -, hcv⟩ := hp.root v hv
      exact ⟨c, hc, hcv⟩
    · exact h.new j y hj hy
  · intro v us hv hus
    obtain ⟨us', hus', hmem⟩ := h.uses v us hv hus
    refine ⟨_, by rw [uses?_inserted, if_neg (hplace v hv), hus', Option.map_some], fun u hu => ?_⟩
    rcases hmem u hu with hu | ⟨hgone, y, hy⟩
    · exact .inl (List.mem_append_left _ hu)
    · exact .inr ⟨by rw [home?_inserted, if_neg (hold u.instr y hy), hgone], y, hy⟩
  · intro v hv
    rw [branches?_inserted, if_neg (hplace v hv), h.branches v hv]

theorem replaceUses (hv : f₀.isPlace v = false) (hw : f₀.isPlace w = false)
    (hr : f.replaceUses v w = .ok g) : Underway stage modes vars f₀ t g := by
  have hreached : g.Reached := h.reached.apply (e := .replaceUses v w) hr
  have hg := handed_of_replaceUses hr
  obtain ⟨us, hus, hbody⟩ := hg.body
  have hne : ∀ x, f₀.isPlace x → x ≠ v ∧ x ≠ w := by
    refine fun x hx => ⟨?_, ?_⟩
    · rintro rfl
      simp [hx] at hv
    · rintro rfl
      simp [hx] at hw
  refine ⟨hreached, by rw [hg.source]; exact h.source, ?_, by rw [hg.home]; exact h.live,
    by rw [hg.home]; exact h.old, by rw [hg.dest]; exact h.dest, ?_, ?_, ?_⟩
  · intro j y hy
    obtain ⟨ρ, hρ, hsmall⟩ := h.body j y hy
    refine ⟨fun s x => if ⟨j, s⟩ ∈ us then w else ρ s x, ?_, fun hj s x hx hp => ?_⟩
    · rw [hbody, hρ, Option.map_some, Body.mapSrcs_mapSrcs]
    -- A deref is no reader of the value that is handed over.
    have hfix := hsmall hj s x hx hp
    have hnot : (⟨j, s⟩ : Use) ∉ us := by
      intro hm
      have hread := ((h.reached.linked.recordedBy j (h.smallAt hj hy)).mem_iff hus).mp hm
      obtain ⟨_, body, -, hb, hsrc⟩ := reads?_iff.mp hread
      obtain rfl : y.mapSrcs ρ = body := by simpa [hρ] using hb
      rw [Body.getElem?_srcs_mapSrcs, hx, Option.map_some, hfix] at hsrc
      exact (hne x hp).1 (Option.some.inj hsrc)
    exact (if_neg hnot).trans hfix
  · intro j y hj hy
    rw [hbody] at hy
    obtain ⟨z, hz, rfl⟩ := Option.map_eq_some_iff.mp hy
    obtain ⟨hwide, hroot⟩ := h.new j z hj hz
    refine ⟨by rw [Body.isWide_mapSrcs, hwide], fun x hx => hroot x ?_⟩
    rcases z with _ | _ | ⟨⟨_ | _, _, _⟩⟩ | _ | _ <;> exact hx
  · intro x xs hx hxs
    rw [hg.uses x (hne x hx).1 (hne x hx).2, hg.home]
    exact h.uses x xs hx hxs
  · intro x hx
    rw [hg.branches x (hne x hx).1 (hne x hx).2, h.branches x hx]

theorem remove (he : f₀.Eligible stage modes vars i) (hr : f.remove i = .ok g) :
    Underway stage modes vars f₀ t g := by
  have hreached : g.Reached := h.reached.apply (e := .remove i) hr
  have hg := dropped_of_remove hr
  obtain ⟨a, ha, -⟩ := id he
  refine ⟨hreached, by rw [hg.source]; exact h.source, by rw [hg.body]; exact h.body, ?_, ?_,
    by rw [hg.dest]; exact h.dest, by rw [hg.body]; exact h.new, ?_,
    by rw [hg.branches]; exact h.branches⟩
  · intro j d hj
    rw [hg.home]
    split
    · rename_i hji
      exact .inr ⟨rfl, hji ▸ he⟩
    · exact h.live j d hj
  · intro j d y hy hj
    rw [hg.home] at hj
    split at hj
    · cases hj
    · exact h.old j d y hy hj
  · intro x xs hx hxs
    obtain ⟨us, hus, hmem⟩ := h.uses x xs hx hxs
    obtain ⟨us', hus', hmem'⟩ := hg.uses_after hus
    refine ⟨us', hus', fun u hu => ?_⟩
    have hgone : u.instr = i → g.home? u.instr = none ∧ ∃ body, f₀.body? u.instr = some body := by
      rintro rfl
      exact ⟨by simp [hg.home], _, ha⟩
    rcases hmem u hu with hu | ⟨hnone, hold⟩
    · exact (hmem' u hu).imp id hgone
    · refine .inr ⟨?_, hold⟩
      rw [hg.home, hnone]
      split <;> rfl

theorem moves {May : ValueId → Prop} {Emits : Prop}
    (hm : Relation.ReflTransGen (Splitting.Moves root May Emits) (t, f) (t', g)) :
    Underway stage modes vars f₀ t' g := by
  suffices ∀ p q, Relation.ReflTransGen (Splitting.Moves root May Emits) p q →
      Underway stage modes vars f₀ p.1 p.2 → Underway stage modes vars f₀ q.1 q.2 from
    this _ _ hm h
  intro p q hm hp
  induction hm with
  | refl => exact hp
  | tail _ hstep ih =>
    cases hstep with
    | create _ hc =>
      cases hc
      exact ih.mono fun c hc => List.mem_append_left _ hc
    | insert hi =>
      obtain ⟨c, body, dest, n, hi, hp⟩ := hi
      exact ih.insert hi hp

omit h in
theorem smallAt_of_deref {d : Deref} (hd : f.body? j = some (.deref d)) : f.SmallAt j := by
  intro vs hvs
  rw [srcs?_eq_map, hd] at hvs
  obtain rfl := Option.some.inj hvs
  obtain ⟨_ | _, _, _⟩ := d <;> simp [Body.srcs]

theorem rooted {P₀ P : InstrId → Prop} (hr : f₀.Rooted P₀ root v)
    (hP : ∀ j d, f₀.body? j = some (.deref d) → P₀ j → P j) : f.Rooted P root v := by
  induction hr with
  | var hs hi hb =>
    obtain ⟨ρ, hρ, -⟩ := h.body _ _ hb
    exact .var (h.source _ _ hs) (hP _ _ hb hi) hρ
  | @element v parent index i mode type hs hi hb hp ih =>
    obtain ⟨ρ, hρ, hfix⟩ := h.body _ _ hb
    have hparent : ρ 0 parent = parent := hfix (smallAt_of_deref hb) 0 parent rfl hp.isPlace
    have hbody : f.body? i = some (.deref ⟨.element parent (ρ 1 index), mode, type⟩) := by
      rw [hρ, Body.mapSrcs, hparent]
    exact .element (h.source _ _ hs) (hP _ _ hb hi) hbody ih

theorem standing (hr : f₀.Standing root v) : f.Standing root v := by
  refine h.rooted hr fun j d hd hj => ?_
  obtain ⟨b, hb⟩ := Option.isSome_iff_exists.mp hj
  rcases h.live j b hb with hj | ⟨-, a, ha, -⟩
  · simp [hj]
  · simp [hd] at ha

theorem deref_body {d : Deref} (hd : f₀.body? j = some (.deref d)) :
    ∃ step, f.body? j = some (.deref { d with step }) := by
  obtain ⟨ρ, hρ, -⟩ := h.body j _ hd
  obtain ⟨_ | _, mode, type⟩ := d
  · exact ⟨_, hρ⟩
  · exact ⟨_, hρ⟩

theorem deref_mode {d : Deref} (hd : f₀.deref v = .ok (some d)) :
    ∃ d', f.deref v = .ok (some d') ∧ d'.mode = d.mode := by
  obtain ⟨j, x, hj, hx, hxd⟩ := deref_eq_ok_iff.mp hd
  have hbody : f₀.body? j = some (.deref d) := by
    rw [body?, hx, Option.map_some, Body.deref?_eq_some.mp hxd]
  obtain ⟨step, hstep⟩ := h.deref_body hbody
  exact ⟨_, deref_eq_ok (h.source v j hj) hstep, rfl⟩

theorem access {a : Access} (ha : f₀.body? j = some (.access a)) : ∃ srcs,
    f.body? j = some (.access { a with srcs }) ∧
      (f₀.SmallAt j → ∀ v, a.srcs[0]? = some v → f₀.isPlace v → srcs[0]? = some v) := by
  obtain ⟨ρ, hρ, hfix⟩ := h.body j _ ha
  refine ⟨a.srcs.mapIdx ρ, hρ, fun hj v hv hp => ?_⟩
  rw [List.getElem?_mapIdx, hv, Option.map_some, hfix hj 0 v hv hp]

theorem splits {a : Access} (hs : f₀.Splits stage modes vars j a v root) (hj : f₀.SmallAt j)
    (hx : vars.Extends t.vars) :
    ∃ srcs, f.Splits stage modes t.vars j { a with srcs } v root := by
  obtain ⟨srcs, hbody, hhead⟩ := h.access hs.body
  obtain ⟨d, hd, hmode⟩ := hs.mode
  obtain ⟨d', hd', hsame⟩ := h.deref_mode hd
  obtain ⟨x, hvar, hcan⟩ := hs.var
  exact ⟨srcs, hbody, hs.wide, hs.kind, hhead hj v hs.head hs.chain.isPlace,
    ⟨d', hd', by rw [hsame]; exact hmode⟩, h.rooted hs.chain fun _ _ _ _ => trivial, x,
    hx root x hvar, hcan⟩

/-- What is split now, and goes through a chain of the start, was to be split at the start. -/
theorem splits_start {a a' : Access} {w : ValueId} {r : VarId} {x : Variable}
    (hs : f.Splits stage modes t.vars j a' w r) (ha : f₀.body? j = some (.access a))
    (hj : f₀.SmallAt j) (hx : vars.Extends t.vars) (hv : a.srcs[0]? = some v)
    (hr : f₀.Rooted (fun _ => True) root v) (hvar : vars.get? root = some x) :
    w = v ∧ r = root ∧ (∃ srcs, a' = { a with srcs }) ∧
      f₀.Splits stage modes vars j a v root := by
  obtain ⟨srcs, hbody, hhead⟩ := h.access ha
  obtain rfl : a' = { a with srcs } := by simpa [hs.body] using hbody
  obtain rfl : w = v := by simpa [hs.head] using hhead hj v hv hr.isPlace
  have hroot : r = root := (h.rooted hr fun _ _ _ _ => trivial).unique hs.chain
  subst hroot
  obtain ⟨i, d, hi, hd⟩ := isPlace_iff.mp hr.isPlace
  have hderef : f₀.deref w = .ok (some d) := deref_eq_ok hi hd
  obtain ⟨d', hd', hsame⟩ := h.deref_mode hderef
  obtain ⟨d'', hd'', hmode⟩ := hs.mode
  obtain rfl : d'' = d' := by simpa [hd'] using hd''.symm
  obtain ⟨y, hy, hcan⟩ := hs.var
  obtain rfl : x = y := by simpa [hx r x hvar] using hy
  exact ⟨rfl, rfl, ⟨srcs, rfl⟩, ha, hs.wide, hs.kind, hv, ⟨d, hderef, by rwa [← hsame]⟩, hr, x,
    hvar, hcan⟩

end Underway

theorem Splits.unique {a a' : Access} {v' : ValueId} {root' : VarId}
    (h : f.Splits stage modes vars i a v root) (h' : f.Splits stage modes vars i a' v' root') :
    a' = a ∧ v' = v ∧ root' = root := by
  obtain rfl : a' = a := by simpa [h'.body] using h.body
  obtain rfl : v' = v := by simpa [h'.head] using h.head
  exact ⟨rfl, rfl, h.chain.unique h'.chain⟩

theorem changes_of_moves {May : ValueId → Prop} {Emits : Prop} {p q : Splitting × Function}
    (h : Relation.ReflTransGen (Splitting.Moves root May Emits) p q) :
    Relation.ReflTransGen Change p.2 q.2 := by
  induction h with
  | refl => exact .refl
  | tail _ hstep ih =>
    cases hstep with
    | create => exact ih
    | insert hi =>
      obtain ⟨c, body, dest, n, hi, -⟩ := hi
      exact ih.tail (.insert hi)

theorem Linked.changes (hf : f.Linked) (h : Relation.ReflTransGen Change f g) : g.Linked := by
  induction h with
  | refl => exact hf
  | tail _ hstep ih => exact ih.change hstep

theorem SmallAt.of_changes (h : Relation.ReflTransGen Change f g) (hg : g.SmallAt i) :
    f.SmallAt i := by
  induction h with
  | refl => exact hg
  | tail _ hstep ih => exact ih (hg.of_change hstep)

namespace TakesApart

variable {a : Access}

theorem changes (h : TakesApart t f i a v root t' g) : Relation.ReflTransGen Change f g := by
  cases h with
  | load _ _ hmoves _ _ hr hg =>
    exact ((changes_of_moves hmoves).tail (.replaceUses hr)).tail (.remove hg)
  | store _ hmoves _ hg => exact (changes_of_moves hmoves).tail (.remove hg)

theorem gone (h : TakesApart t f i a v root t' g) : g.home? i = none := by
  cases h with
  | load _ _ _ _ _ _ hg => simp [(dropped_of_remove hg).home]
  | store _ _ _ hg => simp [(dropped_of_remove hg).home]

theorem home (h : TakesApart t f i a v root t' g) (hj : j ≠ i) {body : Body}
    (hb : f.body? j = some body) : g.home? j = f.home? j := by
  have hmoved : ∀ {k : Function}, f.Kept k → k.home? j = f.home? j := by
    intro k hk
    obtain ⟨x, hx, -⟩ := Option.map_eq_some_iff.mp hb
    simp only [home?, hx, hk.instr j x hx]
  cases h with
  | load _ _ hmoves _ _ hr hg =>
    rw [(dropped_of_remove hg).home, if_neg hj, (handed_of_replaceUses hr).home]
    exact hmoved (Splitting.kept_of_moves hmoves)
  | store _ hmoves _ hg =>
    rw [(dropped_of_remove hg).home, if_neg hj]
    exact hmoved (Splitting.kept_of_moves hmoves)

theorem opened (h : TakesApart t f i a v root t' g) (ha : a.Emits) :
    ChannelBuild.Opened root t' := by
  cases h with
  | load _ _ _ _ hopen => exact hopen
  | store _ _ hopen => exact hopen ha

end TakesApart

namespace Underway

theorem access_of_splits (h : Underway stage modes vars f₀ t f) {a : Access}
    (hs : f.Splits stage modes t.vars i a v root) :
    ∃ a₀, f₀.body? i = some (.access a₀) := by
  cases hb : f₀.body? i with
  | none =>
    have hnarrow := (h.new i _ hb hs.body).1
    simp [Body.isWide, hs.wide] at hnarrow
  | some body =>
    obtain ⟨a₀, rfl⟩ := h.access_start hb hs.body
    exact ⟨a₀, rfl⟩

theorem smallAt_start (h : Underway stage modes vars f₀ t f) (hi : f.SmallAt i) {body : Body}
    (hb : f₀.body? i = some body) : f₀.SmallAt i := by
  obtain ⟨ρ, hρ, -⟩ := h.body i body hb
  intro vs hvs
  rw [srcs?_eq_map, hb] at hvs
  obtain rfl := Option.some.inj hvs
  have := hi (body.mapSrcs ρ).srcs (by rw [srcs?_eq_map, hρ]; rfl)
  rwa [Body.length_srcs_mapSrcs] at this

theorem isPlace_dest (h : Underway stage modes vars f₀ t f) {a : Access}
    (ha : f₀.body? i = some (.access a)) (hd : f.dest? i = some v) : f₀.isPlace v = false := by
  by_contra hp
  obtain ⟨j, d, hj, hd'⟩ := isPlace_iff.mp (by simpa using hp)
  have hi := (h.reached.linked.defined.iff i v).mp hd
  obtain rfl : j = i := by simpa [h.source v j hj] using hi
  simp [ha] at hd'

theorem takesApart (h : Underway stage modes vars f₀ t f) {a : Access}
    (hx : vars.Extends t.vars) (hs : f.Splits stage modes t.vars i a v root)
    (ht : TakesApart t f i a v root t' g) :
    f₀.SmallAt i ∧ Underway stage modes vars f₀ t' g := by
  obtain ⟨a₀, ha₀⟩ := h.access_of_splits hs
  have hsmall : f₀.SmallAt i := by
    have hg := h.reached.linked.changes ht.changes
    have hgi : g.SmallAt i := fun vs hvs => hg.sourced.removed i vs ht.gone hvs
    exact h.smallAt_start (hgi.of_changes ht.changes) ha₀
  have he : f₀.Eligible stage modes vars i := by
    refine ⟨a₀, ha₀, hsmall, fun w r x hw hr hvar => ?_⟩
    exact (h.splits_start hs ha₀ hsmall hx hw hr hvar).2.2.2
  have hfresh : ∀ w, f.hasValue w = false → f₀.isPlace w = false := by
    intro w hw
    by_contra hp
    simp [h.hasValue (hasValue_of_isPlace (by simpa using hp))] at hw
  refine ⟨hsmall, ?_⟩
  cases ht with
  | @load t₁ k l _ x w _ hd hmoves hw _ hr hg =>
    have hplace := h.isPlace_dest ha₀ hd
    exact (((h.moves hmoves).replaceUses hplace (hfresh w hw) hr).remove he hg).mono fun c hc => hc
  | store _ hmoves _ hg => exact ((h.moves hmoves).remove he hg).mono fun c hc => hc

end Underway

end Function

end ShaderSSA
