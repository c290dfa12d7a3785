import ShaderSSA.Proofs.Conduct
import ShaderSSA.Proofs.Replacing
import ShaderSSA.Proofs.Tracking

/-! Building in front of an instruction. New instructions line up right before it, and nothing
that was there changes its meaning. -/

namespace ShaderSSA

namespace Function

variable {f g k : Function} {i : InstrId} {c : Cursor}

/-- The cursor points right before `i`. -/
def Stands (f : Function) (c : Cursor) (i : InstrId) : Prop :=
  ∃ b before after, f.blockInstrs b = before ++ i :: after ∧
    f.resolve c = .ok (b, before.length)

/-- `g` is `f` with the instructions `news` right before `i`. -/
structure Grown (f : Function) (i : InstrId) (news : List InstrId) (g : Function) : Prop where
  old : ∀ j x, f.instrs.get? j = some x → g.instrs.get? j = some x
  shape : ∀ v s, f.shape? v = some s → g.shape? v = some s
  source : ∀ v j, f.source? v = some j → g.source? v = some j
  fresh : ∀ n ∈ news, f.instrs.get? n = none ∧ ∃ b, g.home? n = some b
  dest : ∀ n ∈ news, ∀ v, g.dest? n = some v → f.hasValue v = false
  blocks : ∀ b, g.blockInstrs b =
    (f.blockInstrs b).flatMap fun j => if j = i then news ++ [i] else [j]
  terminator : g.terminator? = f.terminator?

theorem hasValue_of_shape {v : ValueId} {s : Shape} (h : f.shape? v = some s) : f.hasValue v := by
  obtain ⟨x, hx, -⟩ := Option.map_eq_some_iff.mp h
  exact hasValue_iff.mpr ⟨x, hx⟩

theorem exists_shape {v : ValueId} (h : f.hasValue v) : ∃ s, f.shape? v = some s := by
  obtain ⟨x, hx⟩ := hasValue_iff.mp h
  exact ⟨x.shape, by simp [shape?, hx]⟩

theorem Grown.hasValue {news : List InstrId} (h : Grown f i news g) {v : ValueId}
    (hv : f.hasValue v) : g.hasValue v := by
  obtain ⟨s, hs⟩ := exists_shape hv
  exact hasValue_of_shape (h.shape v s hs)

theorem Grown.absent {news : List InstrId} (h : Grown f i news g) {v : ValueId}
    (hv : g.hasValue v = false) : f.hasValue v = false := by
  rw [← Bool.not_eq_true] at hv ⊢
  exact fun hk => hv (h.hasValue hk)

theorem expand_of_not_mem {l news : List InstrId} (h : i ∉ l) :
    (l.flatMap fun j => if j = i then news else [j]) = l := by
  have hj : ∀ j ∈ l, (if j = i then news else [j]) = [j] := by
    intro j hj
    have hne : j ≠ i := fun he => h (he ▸ hj)
    rw [if_neg hne]
  rw [List.flatMap_congr hj, List.flatMap_singleton']

theorem expand_split {pre post news : List InstrId} (h : (pre ++ i :: post).Nodup) :
    ((pre ++ i :: post).flatMap fun j => if j = i then news else [j]) =
      pre ++ (news ++ post) := by
  obtain ⟨-, hpost, hapart⟩ := List.nodup_append.mp h
  have hpre : i ∉ pre := fun hm => hapart i hm i (by simp) rfl
  have hnot : i ∉ post := (List.nodup_cons.mp hpost).1
  rw [List.flatMap_append, List.flatMap_cons, expand_of_not_mem hpre, expand_of_not_mem hnot,
    if_pos rfl]

theorem Grown.refl (f : Function) (i : InstrId) : Grown f i [] f := by
  refine ⟨fun _ _ h => h, fun _ _ h => h, fun _ _ h => h, by simp, by simp, ?_, rfl⟩
  intro b
  have hid : (fun j => if j = i then [] ++ [i] else [j]) = fun j => [j] := by
    funext j
    split_ifs with hj
    · simp [hj]
    · rfl
  rw [hid, List.flatMap_singleton']

theorem Grown.body {news : List InstrId} (h : Grown f i news g)
    {j : InstrId} {x : Instr} (hx : f.instrs.get? j = some x) : g.body? j = f.body? j := by
  simp [body?, hx, h.old j x hx]

theorem Grown.home {news : List InstrId} (h : Grown f i news g)
    {j : InstrId} {x : Instr} (hx : f.instrs.get? j = some x) : g.home? j = f.home? j := by
  simp [home?, hx, h.old j x hx]

theorem Grown.destOld {news : List InstrId} (h : Grown f i news g)
    {j : InstrId} {x : Instr} (hx : f.instrs.get? j = some x) : g.dest? j = f.dest? j := by
  simp [dest?, hx, h.old j x hx]

theorem Grown.trans {news more : List InstrId} (h : Grown f i news g) (h' : Grown g i more k)
    (hi : i ∉ news) : Grown f i (news ++ more) k := by
  refine ⟨fun j x hx => h'.old j x (h.old j x hx), fun v s hs => h'.shape v s (h.shape v s hs),
    fun v j hj => h'.source v j (h.source v j hj), ?_, ?_, ?_, h'.terminator.trans h.terminator⟩
  · intro n hn
    rcases List.mem_append.mp hn with hn | hn
    · obtain ⟨hnone, b, hb⟩ := h.fresh n hn
      obtain ⟨x, hx, -⟩ := home?_eq_some.mp hb
      exact ⟨hnone, b, by rw [h'.home hx, hb]⟩
    · obtain ⟨hnone, hx⟩ := h'.fresh n hn
      refine ⟨?_, hx⟩
      cases hy : f.instrs.get? n with
      | none => rfl
      | some y => simp [h.old n y hy] at hnone
  · intro n hn v hv
    rcases List.mem_append.mp hn with hn | hn
    · obtain ⟨-, b, hb⟩ := h.fresh n hn
      obtain ⟨x, hx, -⟩ := home?_eq_some.mp hb
      exact h.dest n hn v (by rw [← h'.destOld hx, hv])
    · exact h.absent (h'.dest n hn v hv)
  · intro b
    rw [h'.blocks, h.blocks, List.flatMap_assoc]
    congr 1
    funext j
    by_cases hj : j = i
    · subst hj
      simp [List.flatMap_append, expand_of_not_mem hi]
    · simp [hj]

theorem insertIdx_length_append {α : Type} (l l' : List α) (x : α) :
    (l ++ l').insertIdx l.length x = l ++ x :: l' := by
  induction l with
  | nil => simp
  | cons a l ih => simp [ih]

theorem position_of_split {b : BlockId} {before after : List InstrId} (hf : f.Placed)
    (h : f.blockInstrs b = before ++ i :: after) : f.position i = .ok (b, before.length) := by
  have hnd := hf.nodup b
  rw [h] at hnd
  have hmem : i ∈ f.blockInstrs b := by simp [h]
  obtain ⟨x, hx, -, hxb⟩ := home?_eq_some.mp (hf.mem_iff.mp hmem)
  cases hy : f.blocks.get? b with
  | none => simp [blockInstrs, hy] at hmem
  | some y =>
    have hlist : y.instrs = before ++ i :: after := by simpa [blockInstrs, hy] using h
    have hnot : i ∉ before := by
      intro hi
      exact (List.nodup_append.mp hnd).2.2 i hi i (by simp) rfl
    refine position_eq_ok.mpr ⟨x, y, hx, hy, hxb, ?_⟩
    rw [hlist, List.idxOf?_eq_some_iff]
    refine ⟨by simp, by simp, ?_⟩
    intro j hj
    have hne : before[j] ≠ i := fun he => hnot (he ▸ List.getElem_mem hj)
    simpa [List.getElem_append_left hj] using hne

/-- One instruction has gone in where the cursor stood. -/
structure GoesIn (f : Function) (i n : InstrId) (body : Body) (result : Option Shape)
    (g : Function) : Prop where
  grown : Grown f i [n] g
  stands : g.Stands (.after n) i
  body : g.body? n = some body
  dest : g.dest? n = result.map fun _ => ⟨f.values.size⟩
  shape : g.shape? ⟨f.values.size⟩ = result
  live : ∀ s, result = some s → g.Live ⟨f.values.size⟩

theorem Stands.goesIn (hs : f.Stands c i) (hf : f.Reached) {body : Body} {dest : Option Shape}
    {n : InstrId} (h : f.insert c body dest = .ok (n, g)) :
    g.Reached ∧ f.GoesIn i n body dest g := by
  have hp := hf.linked.placed
  have hg : g.Reached := hf.apply (e := .insert c body dest) <| by
    simp only [Edit.apply, h]
    rfl
  obtain ⟨b, before, after, hb, hr⟩ := hs
  obtain ⟨b', pos, hr', -, -, hblock, rfl, rfl⟩ := insert_eq_ok.mp h
  obtain ⟨rfl, rfl⟩ : b = b' ∧ before.length = pos := by simpa [hr] using hr'
  have hb' : (f.inserted b before.length body dest).blockInstrs b =
      before ++ ⟨f.instrs.size⟩ :: i :: after := by
    rw [blockInstrs_inserted _ _ _ _ _ hblock, if_pos rfl, hb, insertIdx_length_append]
  have hold : ∀ j x, f.instrs.get? j = some x → j ≠ ⟨f.instrs.size⟩ := by
    rintro j x hx rfl
    simp [Arena.get?_size] at hx
  refine ⟨hg, ?_, ?_, ?_, ?_, ?_, ?_⟩
  · refine ⟨?_, ?_, ?_, ?_, ?_, ?_, terminator?_inserted ..⟩
    · intro j x hx
      rw [get?_instrs_inserted, if_neg (hold j x hx), hx]
    · intro v s hv
      rw [shape?_inserted, if_neg (ne_of_hasValue (hasValue_of_shape hv)), hv]
    · intro v j hv
      obtain ⟨x, hx, -⟩ := Option.map_eq_some_iff.mp hv
      rw [source?_inserted, if_neg (ne_of_hasValue (hasValue_iff.mpr ⟨x, hx⟩)), hv]
    · intro n hn
      obtain rfl : n = ⟨f.instrs.size⟩ := by simpa using hn
      exact ⟨Arena.get?_size _, b, by rw [home?_inserted, if_pos rfl]⟩
    · intro n hn v hv
      obtain rfl : n = ⟨f.instrs.size⟩ := by simpa using hn
      rw [dest?_inserted, if_pos rfl, Option.map_eq_some_iff] at hv
      obtain ⟨_, -, rfl⟩ := hv
      simp [Function.hasValue, Arena.get?_size]
    · intro b'
      rw [blockInstrs_inserted _ _ _ _ _ hblock]
      by_cases hbb : b' = b
      · have hnd := hp.nodup b
        rw [hb] at hnd
        rw [if_pos hbb, hbb, hb, insertIdx_length_append, expand_split hnd]
        simp
      · have hnot : i ∉ f.blockInstrs b' := by
          intro hm
          have h1 := hp.mem_iff.mp hm
          have h2 := hp.mem_iff.mp (show i ∈ f.blockInstrs b by simp [hb])
          exact hbb (by simpa [h1] using h2)
        rw [if_neg hbb, expand_of_not_mem hnot]
  · refine ⟨b, before ++ [⟨f.instrs.size⟩], after, by simpa using hb', ?_⟩
    simp only [resolve, position_of_split hg.linked.placed hb', ok_bind, List.length_append,
      List.length_singleton]
    rfl
  · rw [body?_inserted, if_pos rfl]
  · rw [dest?_inserted, if_pos rfl]
  · rw [shape?_inserted, if_pos rfl]
  · rintro s rfl
    refine ⟨⟨f.instrs.size⟩, b, ?_, ?_⟩
    · rw [source?_inserted, if_pos rfl]
      rfl
    · rw [home?_inserted, if_pos rfl]

theorem Stands.insert (hs : f.Stands c i) (hf : f.Tidy) {body : Body} {dest : Option Shape}
    (hsrc : ∀ v ∈ body.srcs, f.hasValue v) (hlen : body.srcs.length ≤ 256)
    (hw : ∀ s, dest = some s → 1 ≤ s.width ∧ s.width ≤ 4) :
    ∃ n g, f.insert c body dest = .ok (n, g) ∧ Grown f i [n] g ∧ g.Stands (.after n) i ∧ g.Tidy ∧
      g.body? n = some body ∧ g.dest? n = (dest.map fun _ => ⟨f.values.size⟩) ∧
      g.shape? ⟨f.values.size⟩ = dest ∧ (∀ s, dest = some s → g.Live ⟨f.values.size⟩) := by
  obtain ⟨b, before, after, hb, hr⟩ := hs
  have hblock : ∃ x, f.blocks.get? b = some x := by
    cases hx : f.blocks.get? b with
    | none => simp [blockInstrs, hx] at hb
    | some x => exact ⟨x, rfl⟩
  have hins : f.insert c body dest = .ok (⟨f.instrs.size⟩, f.inserted b before.length body dest) :=
    insert_eq_ok.mpr ⟨b, before.length, hr, hsrc, hw, hblock, rfl, rfl⟩
  have htidy : (f.inserted b before.length body dest).Tidy := by
    refine hf.apply (e := .insert c body dest) hlen ?_
    simp only [Edit.apply, hins]
    rfl
  obtain ⟨-, h⟩ := Stands.goesIn ⟨b, before, after, hb, hr⟩ hf.reached hins
  exact ⟨_, _, hins, h.grown, h.stands, htidy, h.body, h.dest, h.shape, h.live⟩

section Old

variable {news : List InstrId} {vars : Variables} {e : Env}

theorem Grown.destShape (h : Grown f i news g) (hf : f.Defined) {j : InstrId} {x : Instr}
    (hx : f.instrs.get? j = some x) : g.destShape? j = f.destShape? j := by
  simp only [destShape?, h.destOld hx]
  cases hv : f.dest? j with
  | none => rfl
  | some v =>
    have hs := (hf.iff j v).mp hv
    obtain ⟨y, hy, -⟩ := Option.map_eq_some_iff.mp hs
    have hshape : f.shape? v = some y.shape := by simp [shape?, hy]
    simp [hshape, h.shape v _ hshape]

theorem Grown.live (h : Grown f i news g) {v : ValueId} (hv : f.Live v) : g.Live v := by
  obtain ⟨j, b, hs, hh⟩ := hv
  obtain ⟨x, hx, -⟩ := home?_eq_some.mp hh
  exact ⟨j, b, h.source v j hs, by rw [h.home hx, hh]⟩

theorem Grown.isPlace (h : Grown f i news g) (hf : f.Defined) {v : ValueId} (hv : f.hasValue v) :
    g.isPlace v = f.isPlace v := by
  obtain ⟨x, hx⟩ := hasValue_iff.mp hv
  have hs : f.source? v = some x.source := by simp [source?, hx]
  obtain ⟨y, hy, -⟩ := Option.bind_eq_some_iff.mp ((hf.iff x.source v).mpr hs)
  simp only [Function.isPlace, hs, h.source v _ hs, Option.bind_some, h.body hy]

theorem Grown.exec [FloatOps] (h : Grown f i news g) (hf : f.Defined) {is : List InstrId}
    (his : ∀ j ∈ is, ∃ x, f.instrs.get? j = some x) : g.exec? vars is e = f.exec? vars is e := by
  refine exec?_congr fun j hj => ?_
  obtain ⟨x, hx⟩ := his j hj
  exact ⟨h.body hx, h.destOld hx, h.destShape hf hx⟩

end Old

theorem Grown.home_cases {news : List InstrId} (hg : Grown f i news g) (hf : f.Placed)
    (hg' : g.Placed) {j : InstrId} {d : BlockId} (hj : g.home? j = some d) :
    f.home? j = some d ∨ j ∈ news := by
  have hmem := hg'.mem_iff.mpr hj
  rw [hg.blocks, List.mem_flatMap] at hmem
  obtain ⟨a, ha, hja⟩ := hmem
  by_cases hai : a = i
  · rw [if_pos hai] at hja
    rcases List.mem_append.mp hja with hn | hn
    · exact .inr hn
    · obtain rfl : j = i := by simpa using hn
      exact .inl (hf.mem_iff.mp (hai ▸ ha))
  · rw [if_neg hai] at hja
    obtain rfl : j = a := by simpa using hja
    exact .inl (hf.mem_iff.mp ha)

theorem Grown.live_cases {news : List InstrId} (hg : Grown f i news g) (hf : f.Linked)
    (hg' : g.Linked) {v : ValueId} (hv : g.Live v) :
    f.Live v ∨ ∃ m ∈ news, g.source? v = some m := by
  obtain ⟨j, b, hs, hj⟩ := hv
  rcases hg.home_cases hf.placed hg'.placed hj with hold | hnew
  · obtain ⟨x, hx, -⟩ := home?_eq_some.mp hold
    have hd := (hg'.defined.iff j v).mpr hs
    rw [hg.destOld hx] at hd
    exact .inl ⟨j, b, (hf.defined.iff j v).mp hd, hold⟩
  · exact .inr ⟨j, hnew, hs⟩

end Function

/-- A property of instructions that outlives the building of others. -/
structure Trait where
  holds : Function → Body → Option Shape → Prop
  grows : ∀ {f g : Function} {i : InstrId} {news : List InstrId} {body : Body}
    {dest : Option Shape}, f.Tidy → f.Grown i news g → (∀ v ∈ body.srcs, f.Live v) →
    holds f body dest → holds g body dest

namespace Function

variable {f g k : Function} {i : InstrId} {c : Cursor} {P : Trait} {news more : List InstrId}

/-- Instructions emitted in front of `i`, each with the trait `P` and with sources that were
defined before or have just been. -/
structure Emits (P : Trait) (f : Function) (i : InstrId) (news : List InstrId) (g : Function) :
    Prop where
  grown : Grown f i news g
  apart : i ∉ news
  tidy : g.Tidy
  new : ∀ pre n post, news = pre ++ n :: post → ∃ b body, g.home? n = some b ∧
    g.body? n = some body ∧ P.holds g body (g.destShape? n) ∧
    ∀ v ∈ body.srcs, f.Live v ∨ ∃ m ∈ pre, g.source? v = some m

theorem Stands.home (hs : f.Stands c i) (hf : f.Placed) : ∃ b, f.home? i = some b := by
  obtain ⟨b, before, after, hb, -⟩ := hs
  exact ⟨b, hf.mem_iff.mp (by simp [hb])⟩

theorem Grown.not_mem (h : Grown f i news g) (hs : f.Stands c i) (hf : f.Placed) : i ∉ news := by
  intro hm
  obtain ⟨b, hb⟩ := hs.home hf
  obtain ⟨x, hx, -⟩ := home?_eq_some.mp hb
  simpa [hx] using (h.fresh i hm).1

/-- `g` came about by building in front of `i`. -/
def Grows (f : Function) (i : InstrId) (g : Function) : Prop := ∃ news, i ∉ news ∧ f.Grown i news g

theorem Grows.grown (h : f.Grows i g) : ∃ news, f.Grown i news g := by
  obtain ⟨news, -, hg⟩ := h
  exact ⟨news, hg⟩

theorem Grows.refl (f : Function) (i : InstrId) : f.Grows i f := ⟨[], by simp, .refl f i⟩

theorem Grows.trans (h : f.Grows i g) (h' : g.Grows i k) : f.Grows i k := by
  obtain ⟨news, hi, h⟩ := h
  obtain ⟨more, hi', h'⟩ := h'
  exact ⟨news ++ more, by simp [hi, hi'], h.trans h' hi⟩

theorem Grows.shape (h : f.Grows i g) {v : ValueId} {s : Shape} (hs : f.shape? v = some s) :
    g.shape? v = some s := by
  obtain ⟨_, -, h⟩ := h
  exact h.shape v s hs

/-- `w` is `v` itself or something new that is no place. -/
def Taken (f g : Function) (v w : ValueId) : Prop :=
  w = v ∨ f.hasValue w = false ∧ g.isPlace w = false

theorem Taken.trans {v w x : ValueId} (h : f.Taken g v w) (h' : g.Taken k w x)
    (hg : g.Defined) (hw : g.hasValue w) (hfg : f.Grows i g) (hgk : g.Grows i k) :
    f.Taken k v x := by
  obtain ⟨_, -, hfg⟩ := hfg
  obtain ⟨_, -, hgk⟩ := hgk
  rcases h' with rfl | ⟨hfresh, hplace⟩
  · exact h.imp_right (.imp_right (by rw [hgk.isPlace hg hw]; exact id))
  · exact .inr ⟨hfg.absent hfresh, hplace⟩

theorem Emits.grows (h : Emits P f i news g) : f.Grows i g := ⟨news, h.apart, h.grown⟩

theorem Emits.mem_new (h : Emits P f i news g) {n : InstrId} (hn : n ∈ news) :
    ∃ b body, g.home? n = some b ∧ g.body? n = some body ∧ P.holds g body (g.destShape? n) ∧
      ∀ v ∈ body.srcs, g.Live v := by
  obtain ⟨pre, post, hsplit⟩ := List.append_of_mem hn
  obtain ⟨b, body, hb, hbody, hP, hsrc⟩ := h.new pre n post hsplit
  refine ⟨b, body, hb, hbody, hP, fun v hv => ?_⟩
  rcases hsrc v hv with hlive | ⟨m, hm, hs⟩
  · exact h.grown.live hlive
  · obtain ⟨-, b', hb'⟩ := h.grown.fresh m (by simp [hsplit, hm])
    exact ⟨m, b', hs, hb'⟩

theorem Emits.refl (hf : f.Tidy) (i : InstrId) : Emits P f i [] f :=
  ⟨.refl f i, by simp, hf, by simp⟩

theorem Emits.mono {P' : Trait} (h : Emits P f i news g)
    (hP : ∀ g body dest, P.holds g body dest → P'.holds g body dest) : Emits P' f i news g := by
  refine ⟨h.grown, h.apart, h.tidy, fun pre n post hsplit => ?_⟩
  obtain ⟨b, body, hb, hbody, hp, hsrc⟩ := h.new pre n post hsplit
  exact ⟨b, body, hb, hbody, hP g body _ hp, hsrc⟩

theorem Emits.trans (h : Emits P f i news g) (h' : Emits P g i more k) (hf : f.Linked) :
    Emits P f i (news ++ more) k := by
  refine ⟨h.grown.trans h'.grown h.apart, by simp [h.apart, h'.apart], h'.tidy, ?_⟩
  intro pre n post hsplit
  have hcases : (∃ post', news = pre ++ n :: post') ∨
      ∃ pre', pre = news ++ pre' ∧ more = pre' ++ n :: post := by
    rcases List.append_eq_append_iff.mp hsplit with ⟨l, hpre, hmore⟩ | ⟨l, hnews, hrest⟩
    · exact .inr ⟨l, hpre, hmore⟩
    · cases l with
      | nil => exact .inr ⟨[], by simpa using hnews.symm, by simpa using hrest.symm⟩
      | cons m l =>
        obtain ⟨rfl, -⟩ := List.cons.inj hrest
        exact .inl ⟨l, hnews⟩
  rcases hcases with ⟨post', hnews⟩ | ⟨pre', rfl, hmore⟩
  · obtain ⟨b, body, hb, hbody, hP, hsrc⟩ := h.new pre n post' hnews
    obtain ⟨_, body', -, hbody', -, hlive⟩ := h.mem_new (n := n) (by simp [hnews])
    obtain rfl : body = body' := by simpa [hbody] using hbody'
    obtain ⟨x, hx, -⟩ := home?_eq_some.mp hb
    refine ⟨b, body, ?_, ?_, ?_, fun v hv => ?_⟩
    · rw [h'.grown.home hx, hb]
    · rw [h'.grown.body hx, hbody]
    · rw [h'.grown.destShape h.tidy.linked.defined hx]
      exact P.grows h.tidy h'.grown hlive hP
    · rcases hsrc v hv with hold | ⟨m, hm, hs⟩
      · exact .inl hold
      · exact .inr ⟨m, hm, h'.grown.source v m hs⟩
  · obtain ⟨b, body, hb, hbody, hP, hsrc⟩ := h'.new pre' n post hmore
    refine ⟨b, body, hb, hbody, hP, fun v hv => ?_⟩
    rcases hsrc v hv with hold | ⟨m, hm, hs⟩
    · rcases h.grown.live_cases hf h.tidy.linked hold with hlive | ⟨m, hm, hs⟩
      · exact .inl hlive
      · exact .inr ⟨m, by simp [hm], h'.grown.source v m hs⟩
    · exact .inr ⟨m, by simp [hm], hs⟩

end Function

namespace Build

/-- Instructions with the trait `P` are emitted in front of `i`. -/
def yielding (P : Trait) (i : InstrId) : Conduct Builder.func where
  ready b := b.func.Tidy ∧ b.func.Stands b.cursor i
  rel f news g := f.Emits P i news g
  refl h := .refl h.1 i
  trans hs _ h h' := h.trans h' hs.1.linked

/-- The build succeeds right in front of `i`, and its result, the instructions it emits and the
function it leaves are as `Q` says. -/
abbrev Yields {α : Type} (P : Trait) (m : Build α) (f : Function) (i : InstrId)
    (Q : α → List InstrId → Function → Prop) : Prop :=
  Obeys False (yielding P i) m f Q

end Build

end ShaderSSA
