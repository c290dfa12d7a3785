import ShaderSSA.Proofs.Laying
import ShaderSSA.Proofs.VarSplit

/-! What splitting a variable does where it goes through: channel variables are created and pieces
are inserted, one after the other, before the access is handed over and removed. Nothing is asked
of the function, so that every split that succeeds has this form. -/

namespace ShaderSSA

/-- The variable that a deref names itself. -/
def Body.root? : Body → Option VarId
  | deref ⟨.var v, _, _⟩ => some v
  | _ => none

/-- The variable for a new channel of `source` is created. -/
inductive Splitting.Creates (source : VarId) (s : Splitting) : Splitting → Prop
  | mk {x : Variable} {channel : Nat} {type : VarType} : s.vars.get? source = some x →
      channel < maxWidth → x.type.channelType? = some type →
      (∀ c ∈ s.channels, ¬ (c.source = source ∧ c.channel = channel)) →
      Creates source s { s with
        vars := (s.vars.add (x.onChannel channel type)).2
        channels := s.channels ++
          [⟨source, channel, (s.vars.add (x.onChannel channel type)).1⟩] }

/-- What takes the place of an access: it reads only what `May` allows, has one channel, and names
no variable but those that stand for channels of `source`. -/
structure Body.Piece (source : VarId) (May : ValueId → Prop) (s : Splitting) (body : Body) :
    Prop where
  narrow : body.isWide = false
  srcs : ∀ v ∈ body.srcs, May v
  root : ∀ v, body.root? = some v → ∃ c ∈ s.channels, c.source = source ∧ c.var = v

namespace Function

variable {f g k : Function} {v w : ValueId} {i : InstrId}

/-- A piece is inserted. -/
def Inserts (source : VarId) (May : ValueId → Prop) (s : Splitting) (f g : Function) : Prop :=
  ∃ c body dest n, f.insert c body dest = .ok (n, g) ∧ body.Piece source May s

/-- What is there stays as it is. -/
structure Kept (f g : Function) : Prop where
  instr : ∀ j x, f.instrs.get? j = some x → g.instrs.get? j = some x
  source : ∀ v j, f.source? v = some j → g.source? v = some j

theorem Kept.refl (f : Function) : f.Kept f := ⟨fun _ _ h => h, fun _ _ h => h⟩

theorem Kept.trans (h : f.Kept g) (h' : g.Kept k) : f.Kept k :=
  ⟨fun j x hx => h'.instr j x (h.instr j x hx), fun v j hj => h'.source v j (h.source v j hj)⟩

theorem exists_source (h : f.hasValue v) : ∃ j, f.source? v = some j := by
  obtain ⟨x, hx⟩ := hasValue_iff.mp h
  exact ⟨x.source, by simp [source?, hx]⟩

theorem hasValue_of_source {j : InstrId} (h : f.source? v = some j) : f.hasValue v := by
  obtain ⟨x, hx, -⟩ := Option.map_eq_some_iff.mp h
  exact hasValue_iff.mpr ⟨x, hx⟩

theorem Kept.hasValue (h : f.Kept g) (hv : f.hasValue v) : g.hasValue v := by
  obtain ⟨j, hj⟩ := exists_source hv
  exact hasValue_of_source (h.source v j hj)

theorem kept_of_insert {c : Cursor} {body : Body} {dest : Option Shape} {n : InstrId}
    (h : f.insert c body dest = .ok (n, g)) : f.Kept g := by
  obtain ⟨b, pos, -, -, -, -, -, rfl⟩ := insert_eq_ok.mp h
  refine ⟨fun j x hx => ?_, fun v j hj => ?_⟩
  · have hj : j ≠ ⟨f.instrs.size⟩ := by
      rintro rfl
      simp [Arena.get?_size] at hx
    rw [get?_instrs_inserted, if_neg hj, hx]
  · have hv : v ≠ ⟨f.values.size⟩ := by
      rintro rfl
      simp [source?, Arena.get?_size] at hj
    rw [source?_inserted, if_neg hv, hj]

theorem deref_eq_ok_iff {o : Option Deref} : f.deref v = .ok o ↔
    ∃ j x, f.source? v = some j ∧ f.instrs.get? j = some x ∧ x.body.deref? = o := by
  simp only [deref, definition, bind_eq_ok, pure_eq_ok, value_eq_ok, instr_eq_ok, source?,
    Option.map_eq_some_iff]
  constructor
  · rintro ⟨x, ⟨y, hy, hx⟩, rfl⟩
    exact ⟨y.source, x, ⟨y, hy, rfl⟩, hx, rfl⟩
  · rintro ⟨j, x, ⟨y, hy, rfl⟩, hx, rfl⟩
    exact ⟨x, ⟨y, hy, hx⟩, rfl⟩

theorem Kept.deref (h : f.Kept g) {o : Option Deref} (hd : f.deref v = .ok o) :
    g.deref v = .ok o := by
  obtain ⟨j, x, hj, hx, ho⟩ := deref_eq_ok_iff.mp hd
  exact deref_eq_ok_iff.mpr ⟨j, x, h.source v j hj, h.instr j x hx, ho⟩

end Function

/-- Steps of the kind `N` are taken. -/
def Build.leading (N : Function → Function → Prop) : Conduct Builder.func where
  ready _ := True
  rel f _ g := Relation.ReflTransGen N f g
  refl _ := .refl
  trans _ _ h h' := h.trans h'

/-- Whenever the build succeeds, steps of the kind `N` lead to the function it leaves, and the
result is as `Q` says. -/
abbrev Build.Leads {α : Type} (N : Function → Function → Prop) (m : Build α) (f : Function)
    (Q : α → Function → Prop) : Prop :=
  Obeys True (leading N) m f fun a _ g => Q a g

namespace ChannelBuild

variable {α : Type} {M : Splitting × Function → Splitting × Function → Prop} {s : Splitting}
  {f : Function}

def leading (M : Splitting × Function → Splitting × Function → Prop) : Conduct view where
  ready _ := True
  rel p _ q := Relation.ReflTransGen M p q
  refl _ := .refl
  trans _ _ h h' := h.trans h'

/-- The same where channel variables are created on the way. -/
abbrev Leads (M : Splitting × Function → Splitting × Function → Prop) (m : ChannelBuild α)
    (s : Splitting) (f : Function) (Q : α → Splitting → Function → Prop) : Prop :=
  Obeys True (leading M) m (s, f) fun a _ p => Q a p.1 p.2

theorem Leads.lift {N : Function → Function → Prop} {m : Build α} {P : α → Function → Prop}
    (h : m.Leads N f P) (hN : ∀ g k, N g k → M (s, g) (s, k)) :
    (liftM m : ChannelBuild α).Leads M s f fun a s' g => s' = s ∧ P a g :=
  Obeys.carried (fun _ _ => ⟨trivial, fun _ _ _ hsteps =>
    ⟨trivial, Relation.ReflTransGen.lift (fun g => (s, g)) hN _ _ hsteps⟩⟩) h

end ChannelBuild

/-- A step of a split that is under way. Channels are created only if `Emits` holds. -/
inductive Splitting.Moves (source : VarId) (May : ValueId → Prop) (Emits : Prop) :
    Splitting × Function → Splitting × Function → Prop
  | create {s s' : Splitting} {f : Function} : Emits → s.Creates source s' →
      Moves source May Emits (s, f) (s', f)
  | insert {s : Splitting} {f g : Function} : f.Inserts source May s g →
      Moves source May Emits (s, f) (s, g)

section Builds

variable {f₀ f g : Function} {source : VarId} {May : ValueId → Prop} {Emits : Prop}
  {s s' : Splitting} {body : Body} {v : ValueId}

theorem Function.Inserts.kept (h : f.Inserts source May s g) : f.Kept g := by
  obtain ⟨c, body, dest, n, hg, -⟩ := h
  exact kept_of_insert hg

theorem Function.kept_of_inserts (h : Relation.ReflTransGen (Inserts source May s) f g) :
    f.Kept g := by
  induction h with
  | refl => exact .refl f
  | tail _ hstep ih => exact ih.trans hstep.kept

theorem Splitting.kept_of_moves {p q : Splitting × Function}
    (h : Relation.ReflTransGen (Moves source May Emits) p q) : p.2.Kept q.2 := by
  induction h with
  | refl => exact .refl p.2
  | tail _ hstep ih =>
    cases hstep with
    | create => exact ih
    | insert hi => exact ih.trans hi.kept

namespace Build

theorem insert_leads (dest : Option Shape) (hp : body.Piece source May s) :
    (insert body dest).Leads (Function.Inserts source May s) f fun n g =>
      f.Kept g ∧ g.dest? n = (dest.map fun _ => ⟨f.values.size⟩) ∧
      g.shape? ⟨f.values.size⟩ = dest := by
  rintro ⟨f, c⟩ rfl -
  refine .of_forall ?_
  rintro ⟨n, b⟩ hrun
  have hi := (insert_of_run hrun).1
  refine ⟨trivial, [], .single ⟨c, body, dest, _, hi, hp⟩, Function.kept_of_insert hi, ?_⟩
  obtain ⟨_, pos, -, -, -, -, rfl, hg⟩ := Function.insert_eq_ok.mp hi
  exact ⟨by simp [hg, Function.dest?_inserted], by simp [hg, Function.shape?_inserted]⟩

theorem insertValue_leads (shape : Shape) (hk : f₀.Kept f) (hp : body.Piece source May s) :
    (insertValue body shape).Leads (Function.Inserts source May s) f fun v g =>
      f₀.hasValue v = false ∧ g.shape? v = some shape := by
  have hnew : f₀.hasValue ⟨f.values.size⟩ = false := by
    by_contra hv
    have := hk.hasValue (by simpa using hv)
    simp [Function.hasValue, Arena.get?_size] at this
  refine .insertValue (insert_leads (some shape) hp) ?_
  rintro n v _ g - ⟨-, hdest, hshape⟩ hv
  obtain rfl : v = ⟨f.values.size⟩ := by simpa [hdest] using hv.symm
  exact ⟨hnew, hshape⟩

theorem aluSwizzled_leads {op : AluOp} {srcs : List Operand} (width : Nat) (hk : f₀.Kept f)
    (hs : ∀ o ∈ srcs, May o.value) :
    (aluSwizzled op srcs width).Leads (Function.Inserts source May s) f fun v g =>
      f₀.hasValue v = false ∧ ∃ bits, g.shape? v = some ⟨width, bits⟩ := by
  have hp : (Body.alu ⟨op, srcs⟩).Piece source May s :=
    ⟨rfl, by simpa [Body.srcs] using hs, by simp [Body.root?]⟩
  exact .aluSwizzled fun bits =>
    (insertValue_leads _ hk hp).imp fun v _ g _ hnew => ⟨hnew.1, bits, hnew.2⟩

theorem mov_leads (o : Operand) (width : Nat) (hk : f₀.Kept f) (ho : May o.value) :
    (mov o width).Leads (Function.Inserts source May s) f fun v g =>
      f₀.hasValue v = false ∧ ∃ bits, g.shape? v = some ⟨width, bits⟩ :=
  aluSwizzled_leads width hk (by simpa using ho)

theorem vec_leads (l : List ValueId) (hk : f₀.Kept f) (hl : ∀ v ∈ l, f₀.hasValue v = false)
    (hmay : ∀ v, f₀.hasValue v = false → May v) :
    (vec l).Leads (Function.Inserts source May s) f fun v _ =>
      l ≠ [] ∧ f₀.hasValue v = false := by
  unfold vec
  split
  · exact .pure ⟨by simp, hl _ (by simp)⟩
  · refine .checked fun op hop => ?_
    refine (aluSwizzled_leads _ hk ?_).imp fun v _ g _ hnew => ⟨?_, hnew.1⟩
    · simpa [Operand.channel] using fun v hv => hmay v (hl v hv)
    · rintro rfl
      simp [AluOp.construct?] at hop

theorem swizzle_leads (lanes : List Nat) (hk : f₀.Kept f) (hv : May v)
    (hmay : ∀ v, f₀.hasValue v = false → May v) :
    (swizzle v lanes).Leads (Function.Inserts source May s) f fun w g =>
      May w ∧ ∃ bits, g.shape? w = some ⟨lanes.length, bits⟩ := by
  refine .shape fun x hx => ?_
  split
  · rename_i hl
    exact .pure ⟨hv, x.bits, by rw [hx, hl, List.length_range]⟩
  · refine .checked fun o ho => ?_
    obtain ⟨rfl, -⟩ := Operand.select_ok ho
    exact (mov_leads o _ hk hv).imp fun w _ g _ hw => ⟨hmay w hw.1, hw.2⟩

theorem materialize_leads (n : Nat) (hk : f₀.Kept f) (hv : May v)
    (hmay : ∀ v, f₀.hasValue v = false → May v) :
    (materialize (.whole v) n).Leads (Function.Inserts source May s) f fun w _ => May w := by
  refine .shape fun x _ => ?_
  dsimp only
  split
  · exact .pure hv
  · refine .checked fun lanes _ => .checked fun o ho => ?_
    obtain ⟨hvalue, -⟩ := Operand.select_ok ho
    exact (mov_leads o _ hk (by rwa [hvalue])).imp fun w _ g _ hw => hmay w hw.1

end Build

/-- The values on the way from one deref down to its variable. -/
def Function.Below (f : Function) : ValueId → ValueId → Prop :=
  Relation.ReflTransGen fun v parent => f.derefParent v = .ok (some parent)

/-- The index of a step below `target`. -/
def Function.IndexBelow (f : Function) (target index : ValueId) : Prop :=
  ∃ v parent mode type, f.Below target v ∧
    f.deref v = .ok (some ⟨.element parent index, mode, type⟩)

theorem Function.derefParent_eq_ok {parent : ValueId} :
    f.derefParent v = .ok (some parent) ↔
      ∃ index mode type, f.deref v = .ok (some ⟨.element parent index, mode, type⟩) := by
  simp only [derefParent, bind_eq_ok]
  constructor
  · rintro ⟨d, hd, h⟩
    split at h
    · cases h
      exact ⟨_, _, _, hd⟩
    · simp at h
  · rintro ⟨index, mode, type, hd⟩
    exact ⟨_, hd, rfl⟩

namespace ChannelBuild

theorem derefElement_leads {parent index : ValueId} (hk : f₀.Kept f) (hp : May parent)
    (hi : May index) : (Build.derefElement parent index).Leads (Function.Inserts source May s) f
      fun v _ => f₀.hasValue v = false := by
  refine .derefOf fun d _ => ?_
  split
  · refine (Build.insertValue_leads _ hk ⟨rfl, ?_, by simp [Body.root?]⟩).imp
      fun v _ g _ hnew => hnew.1
    simpa [Body.srcs] using ⟨hp, hi⟩
  · exact .lift fun _ h => by simp at h

theorem repeatSteps_leads {target root : ValueId} (hroot : f₀.hasValue root = false)
    (hmay : ∀ v, f₀.hasValue v = false → May v) (hindex : ∀ w, f₀.IndexBelow target w → May w) :
    ∀ (steps n : Nat) (f : Function) (v : ValueId) (var : VarId), f₀.Kept f →
      f₀.Below target v → f₀.rootWithin n v = .ok (some var) →
      (repeatSteps root steps v).Leads (Function.Inserts source May s) f
        fun v _ => f₀.hasValue v = false
  | 0, _, _, _, _, _, _, _ => .lift fun _ h => by cases h
  | steps + 1, 0, _, _, _, _, _, hr => by simp [Function.rootWithin] at hr
  | steps + 1, n + 1, f, v, var, hk, hv, hr => by
    rw [Function.rootWithin, bind_eq_ok] at hr
    obtain ⟨d, hd, hr⟩ := hr
    refine .derefOf fun d' hd' => ?_
    obtain rfl : some d' = d := Except.ok.inj (hd'.symm.trans (hk.deref hd))
    obtain ⟨step, mode, type⟩ := d'
    cases step with
    | var _ => exact .pure hroot
    | element parent index =>
      have hparent := Function.derefParent_eq_ok.mpr ⟨index, mode, type, hd⟩
      refine (repeatSteps_leads hroot hmay hindex steps n f parent var hk (hv.tail hparent)
        hr).bind fun p _ k hsteps hp => ?_
      exact derefElement_leads (hk.trans (Function.kept_of_inserts hsteps)) (hmay p hp)
        (hindex index ⟨v, parent, mode, type, hv, hd⟩)

/-- There is a variable for some channel of `source`. -/
def Opened (source : VarId) (s : Splitting) : Prop := ∃ c ∈ s.channels, c.source = source

theorem Opened.moves {p q : Splitting × Function}
    (h : Relation.ReflTransGen (Splitting.Moves source May Emits) p q) (hp : Opened source p.1) :
    Opened source q.1 := by
  induction h with
  | refl => exact hp
  | tail _ hstep ih =>
    cases hstep with
    | insert _ => exact ih
    | create _ hc =>
      obtain ⟨c, hc', hsource⟩ := ih
      cases hc
      exact ⟨c, List.mem_append_left _ hc', hsource⟩

theorem channelVar_leads (channel : Nat) (he : Emits) :
    (channelVar source channel).Leads (Splitting.Moves source May Emits) s f fun id s' g =>
      g = f ∧ ∃ c ∈ s'.channels, c.source = source ∧ c.var = id := by
  refine .splitting (.checked fun x hx => .checked fun _ hlt => ?_)
  split
  · rename_i c hfind
    have hc : c.source = source ∧ c.channel = channel := by simpa using List.find?_some hfind
    exact .pure ⟨rfl, c, List.mem_of_find?_eq_some hfind, hc.1, rfl⟩
  · rename_i hfind
    refine .checked fun type ht => ?_
    have hnone : ∀ c ∈ s.channels, ¬ (c.source = source ∧ c.channel = channel) := by
      simpa using hfind
    have hstep := Splitting.Creates.mk (Checked.inBounds_eq_ok.mp hx) (by simpa using hlt)
      (Checked.orElse_eq_ok.mp ht) hnone
    rintro ⟨s, b⟩ ⟨⟩ -
    exact ⟨trivial, [], .single (.create he hstep), rfl, _,
      List.mem_append_right _ (List.mem_singleton_self _), rfl, rfl⟩

variable {a : Access} {target : ValueId} {n : Nat}

theorem channelDeref_leads (channel : Nat) (he : Emits) (hk : f₀.Kept f)
    (hmay : ∀ v, f₀.hasValue v = false → May v) (hindex : ∀ w, f₀.IndexBelow target w → May w)
    {var : VarId} (hroot : f₀.rootWithin n target = .ok (some var)) :
    (channelDeref source channel target).Leads (Splitting.Moves source May Emits) s f fun v s' _ =>
      f₀.hasValue v = false ∧ Opened source s' := by
  refine (channelVar_leads channel he).bind ?_
  rintro _ _ ⟨s, g⟩ - ⟨rfl, c, hc, hsource, rfl⟩
  refine .splitting (.checked fun x _ => ?_)
  have hpiece : (Body.deref ⟨.var c.var, x.mode, x.type⟩).Piece source May s := by
    refine ⟨rfl, by simp [Body.srcs], fun v hv => ⟨c, hc, hsource, ?_⟩⟩
    simpa [Body.root?] using hv
  refine (Leads.lift (Build.insertValue_leads _ hk hpiece) fun _ _ => .insert).bind ?_
  rintro root _ ⟨s₁, k⟩ hsteps ⟨rfl, hfresh, -⟩
  have hk' := hk.trans (Splitting.kept_of_moves hsteps)
  refine .liftFunc ((Leads.lift
    (repeatSteps_leads hfresh hmay hindex _ n k target var hk' .refl hroot)
    fun _ _ => .insert).imp ?_)
  rintro v _ ⟨s₂, l⟩ - ⟨rfl, hv⟩
  exact ⟨hv, c, hc, hsource⟩

theorem may_extraSources {rest : List ValueId} (h : extraSources a = .ok rest)
    (h1 : ∀ w, a.srcs[1]? = some w → May w) : ∀ w ∈ rest, May w := by
  have hsrc : ∀ l, (do return [← a.src 1] : Checked (List ValueId)) = .ok l → ∀ w ∈ l, May w := by
    intro l hl w hw
    obtain ⟨x, hx, hl⟩ := bind_eq_ok.mp hl
    cases hl
    rw [List.mem_singleton.mp hw]
    exact h1 x (Checked.inBounds_eq_ok.mp hx)
  unfold extraSources at h
  split at h
  · exact hsrc rest h
  · exact hsrc rest h
  · cases h
    simp

theorem loadChannel_leads (first bits k : Nat) (he : Emits) (hk : f₀.Kept f)
    (hmay : ∀ v, f₀.hasValue v = false → May v) (hindex : ∀ w, f₀.IndexBelow target w → May w)
    (h0 : a.srcs[0]? = some target) (h1 : ∀ w, a.srcs[1]? = some w → May w) {var : VarId}
    (hroot : f₀.rootWithin n target = .ok (some var)) :
    (loadChannel a source first bits k).Leads (Splitting.Moves source May Emits) s f fun v s' _ =>
      f₀.hasValue v = false ∧ Opened source s' := by
  refine .checked fun channel _ => .ok (Checked.inBounds_eq_ok.mpr h0) ?_
  refine (channelDeref_leads channel he hk hmay hindex hroot).bind ?_
  rintro d _ ⟨s, g⟩ hsteps ⟨hd, hopen⟩
  refine .checked fun rest hrest => ?_
  have hk' := hk.trans (Splitting.kept_of_moves hsteps)
  have hpiece : (Body.access (.ofSources a.kind 1 (d :: rest))).Piece source May s := by
    refine ⟨rfl, ?_, by simp [Body.root?]⟩
    simpa [Body.srcs, Access.ofSources] using ⟨hmay d hd, may_extraSources hrest h1⟩
  refine (Leads.lift (Build.insertValue_leads ⟨1, bits⟩ hk' hpiece) fun _ _ => .insert).imp ?_
  rintro v _ ⟨s', k⟩ - ⟨rfl, hv, -⟩
  exact ⟨hv, hopen⟩

theorem loadChannels_leads (bits : Nat) (he : Emits) (hmay : ∀ v, f₀.hasValue v = false → May v)
    (hindex : ∀ w, f₀.IndexBelow target w → May w) (h0 : a.srcs[0]? = some target)
    (h1 : ∀ w, a.srcs[1]? = some w → May w) {var : VarId}
    (hroot : f₀.rootWithin n target = .ok (some var)) :
    (loadChannels a source bits).Leads (Splitting.Moves source May Emits) s f₀ fun v s' _ =>
      f₀.hasValue v = false ∧ Opened source s' := by
  refine .splitting (.checked fun x _ => ?_)
  refine (Obeys.mapM (E := leading (Splitting.Moves source May Emits)) (I := fun p => f₀.Kept p.2)
    (T := fun _ v _ p => f₀.hasValue v = false ∧ Opened source p.1)
    (fun _ _ _ hsteps hk => hk.trans (Splitting.kept_of_moves hsteps))
    (fun _ _ _ _ _ _ hsteps ht => ⟨ht.1, ht.2.moves hsteps⟩)
    (fun k _ p hk => loadChannel_leads x.channel bits k he hk hmay hindex h0 h1 hroot)
    (.refl f₀)).bind ?_
  rintro _ _ ⟨s, g⟩ hsteps ⟨ps, rfl, -, hall⟩
  have hload : ∀ v ∈ ps.map (·.1), f₀.hasValue v = false ∧ Opened source s := by
    intro v hv
    obtain ⟨p, hp, rfl⟩ := List.mem_map.mp hv
    obtain ⟨k, -, h⟩ := exists_of_forall₂ hall hp
    exact h
  refine (Leads.lift (Build.vec_leads _ (Splitting.kept_of_moves hsteps)
    (fun v hv => (hload v hv).1) hmay) fun _ _ => .insert).imp ?_
  rintro v _ ⟨s', k⟩ - ⟨rfl, hne, hv⟩
  obtain ⟨w, hw⟩ := List.exists_mem_of_ne_nil _ hne
  exact ⟨hv, (hload w hw).2⟩

theorem storeChannel_leads (first k : Nat) (he : a.writeMask.testBit k → Emits) (hk : f₀.Kept f)
    (hmay : ∀ v, f₀.hasValue v = false → May v) (hindex : ∀ w, f₀.IndexBelow target w → May w)
    (h0 : a.srcs[0]? = some target) (hv : May v) {var : VarId}
    (hroot : f₀.rootWithin n target = .ok (some var)) :
    (storeChannel a source first v k).Leads (Splitting.Moves source May Emits) s f fun _ s' _ =>
      a.writeMask.testBit k → Opened source s' := by
  refine .checked fun bit hbit => ?_
  obtain ⟨-, rfl⟩ := Checked.maskBit_eq_ok.mp hbit
  cases hmask : a.writeMask.testBit k with
  | false => exact .pure (by simp)
  | true =>
    refine .checked fun channel _ => .ok (Checked.inBounds_eq_ok.mpr h0) ?_
    refine (channelDeref_leads channel (he hmask) hk hmay hindex hroot).bind ?_
    rintro d _ ⟨s, g⟩ hsteps ⟨hd, hopen⟩
    have hk' := hk.trans (Splitting.kept_of_moves hsteps)
    refine (Leads.lift (Build.swizzle_leads [k] hk' hv hmay) fun _ _ => .insert).bind ?_
    rintro lane _ ⟨s₁, l⟩ - ⟨rfl, hlane, bits, hshape⟩
    refine (Leads.lift (N := Function.Inserts source May s₁) (P := fun _ _ => True) ?_
      fun _ _ => .insert).bind ?_
    · refine .shape fun x hx => ?_
      obtain rfl : x = ⟨1, bits⟩ := by simpa [hshape] using hx.symm
      refine (Build.insert_leads none ⟨rfl, ?_, by simp [Body.root?]⟩).imp fun _ _ _ _ _ => trivial
      simpa [Body.srcs] using ⟨hmay d hd, hlane⟩
    · rintro _ _ ⟨s₂, l'⟩ - ⟨rfl, -⟩
      exact .pure fun _ => hopen

theorem storeChannels_leads (he : ∀ k < a.width, a.writeMask.testBit k → Emits)
    (hmay : ∀ v, f₀.hasValue v = false → May v)
    (hindex : ∀ w, f₀.IndexBelow target w → May w) (h0 : a.srcs[0]? = some target)
    (h1 : ∀ w, a.srcs[1]? = some w → May w) {var : VarId}
    (hroot : f₀.rootWithin n target = .ok (some var)) :
    (storeChannels a source).Leads (Splitting.Moves source May Emits) s f₀ fun _ s' _ =>
      ∀ k < a.width, a.writeMask.testBit k → Opened source s' := by
  refine .splitting (.checked fun x _ => .checked fun v hv => ?_)
  refine (Leads.lift (Build.materialize_leads a.width (.refl f₀)
    (h1 v (Checked.inBounds_eq_ok.mp hv)) hmay) fun _ _ => .insert).bind ?_
  rintro w _ ⟨s, g⟩ hsteps ⟨rfl, hw⟩
  refine (Obeys.mapM (E := leading (Splitting.Moves source May Emits)) (I := fun p => f₀.Kept p.2)
    (T := fun k _ _ p => a.writeMask.testBit k → Opened source p.1)
    (fun _ _ _ hsteps hk => hk.trans (Splitting.kept_of_moves hsteps))
    (fun _ _ _ _ _ _ hsteps ht hbit => (ht hbit).moves hsteps)
    (fun k hm p hk => storeChannel_leads x.channel k (he k (List.mem_range.mp hm)) hk hmay hindex
      h0 hw hroot) (Splitting.kept_of_moves hsteps)).imp ?_
  rintro _ _ ⟨s, k⟩ - ⟨ps, rfl, -, hall⟩ k hk hbit
  obtain ⟨p, -, hp⟩ := exists_of_forall₂ hall.flip (List.mem_range.mpr hk)
  exact hp hbit

end ChannelBuild

end Builds

/-- An access whose pieces, if it is taken apart, reach some channel. -/
def Access.Emits (a : Access) : Prop :=
  a.kind = .storeDeref → ∃ n < a.width, a.writeMask.testBit n

namespace Function

variable {f g : Function} {i : InstrId} {stage : Stage} {modes : Mode} {vars : Variables}
  {a : Access} {target : ValueId} {root : VarId} {t t' : Splitting}

/-- Derefs with the property `P` lead from the variable `root` to a value. -/
inductive Rooted (f : Function) (P : InstrId → Prop) (root : VarId) : ValueId → Prop
  | var {v : ValueId} {i : InstrId} {mode : Mode} {type : VarType} : f.source? v = some i → P i →
      f.body? i = some (.deref ⟨.var root, mode, type⟩) → Rooted f P root v
  | element {v parent index : ValueId} {i : InstrId} {mode : Mode} {type : VarType} :
      f.source? v = some i → P i →
      f.body? i = some (.deref ⟨.element parent index, mode, type⟩) → Rooted f P root parent →
      Rooted f P root v

theorem Rooted.mono {P P' : InstrId → Prop} {v : ValueId} (h : f.Rooted P root v)
    (hP : ∀ i, P i → P' i) : f.Rooted P' root v := by
  induction h with
  | var hs hi hb => exact .var hs (hP _ hi) hb
  | element hs hi hb _ ih => exact .element hs (hP _ hi) hb ih

theorem rooted_of_rootWithin {n : Nat} {v : ValueId} (h : f.rootWithin n v = .ok (some root)) :
    f.Rooted (fun _ => True) root v := by
  induction n generalizing v with
  | zero => cases h
  | succ n ih =>
    obtain ⟨o, ho, h⟩ := bind_eq_ok.mp h
    obtain ⟨i, x, hi, hx, rfl⟩ := deref_eq_ok_iff.mp ho
    have hbody : f.body? i = some x.body := by simp [body?, hx]
    rcases hd : x.body.deref? with _ | ⟨_ | _, _, _⟩
    · simp [hd] at h
    · rw [hd] at h
      cases h
      exact .var hi trivial (hbody.trans (by rw [Body.deref?_eq_some.mp hd]))
    · rw [hd] at h
      exact .element hi trivial (hbody.trans (by rw [Body.deref?_eq_some.mp hd])) (ih h)

theorem Rooted.rootWithin_eq {P : InstrId → Prop} {n : Nat} {v : ValueId} {o : Option VarId}
    (h : f.Rooted P root v) (hn : f.rootWithin n v = .ok o) : o = some root := by
  induction h generalizing n with
  | var hs _ hb =>
    cases n with
    | zero => cases hn
    | succ n =>
      rw [rootWithin, deref_eq_ok hs hb] at hn
      exact (Except.ok.inj hn).symm
  | element hs _ hb _ ih =>
    cases n with
    | zero => cases hn
    | succ n =>
      rw [rootWithin, deref_eq_ok hs hb] at hn
      exact ih hn

/-- An access to several channels that is to be taken apart. -/
structure Splits (stage : Stage) (modes : Mode) (vars : Variables) (f : Function) (i : InstrId)
    (a : Access) (target : ValueId) (root : VarId) : Prop where
  body : f.body? i = some (.access a)
  wide : a.width ≠ 1
  kind : a.kind.isDerefAccess
  head : a.srcs[0]? = some target
  mode : ∃ d, f.deref target = .ok (some d) ∧ splitsAccess a.kind d.mode modes
  chain : f.Rooted (fun _ => True) root target
  var : ∃ x, vars.get? root = some x ∧ x.canSplit stage

/-- What the pieces of an access may read: each other, the indices of its chain again and what it
read beside its deref. -/
def Rereads (f : Function) (a : Access) (target v : ValueId) : Prop :=
  f.hasValue v = false ∨ f.IndexBelow target v ∨ a.srcs[1]? = some v

/-- An access is taken apart. -/
inductive TakesApart (t : Splitting) (f : Function) (i : InstrId) (a : Access) (target : ValueId)
    (root : VarId) : Splitting → Function → Prop
  | load {t₁ : Splitting} {k l g : Function} {v w : ValueId} : a.kind ≠ .storeDeref →
      f.dest? i = some v →
      Relation.ReflTransGen (Splitting.Moves root (f.Rereads a target) a.Emits) (t, f) (t₁, k) →
      f.hasValue w = false → ChannelBuild.Opened root t₁ → k.replaceUses v w = .ok l →
      l.remove i = .ok g →
      TakesApart t f i a target root { t₁ with stats := t₁.stats.countLoad a.width } g
  | store {t₁ : Splitting} {k g : Function} {written : List Bool} : a.kind = .storeDeref →
      Relation.ReflTransGen (Splitting.Moves root (f.Rereads a target) a.Emits) (t, f) (t₁, k) →
      (a.Emits → ChannelBuild.Opened root t₁) → k.remove i = .ok g →
      TakesApart t f i a target root { t₁ with stats := t₁.stats.countStore written } g

theorem buildChannels_bind_eq_ok {α β : Type} {m : ChannelBuild α}
    {k : α × Function → SplitEdit β} {r : β × Splitting} :
    (f.buildChannels i m >>= k).run t = .ok r ↔ ∃ x t₁ b,
      m.run (t, ⟨f, .before i⟩) = .ok (x, t₁, b) ∧ (k (x, b.func)).run t₁ = .ok r := by
  have hrun : (f.buildChannels i m).run t =
      (m.run (t, ⟨f, .before i⟩) >>= fun p => .ok ((p.1, p.2.2.func), p.2.1)) := by
    change ((liftM (m.run (t, ⟨f, .before i⟩)) : SplitEdit (α × Splitting × Builder)) >>=
      fun r => do
        set r.2.1
        return (r.1, r.2.2.func)).run t = _
    cases m.run (t, ⟨f, .before i⟩) with
    | error e => rfl
    | ok p => rfl
  rw [StateT.run_bind, hrun, bind_eq_ok]
  simp only [bind_eq_ok]
  constructor
  · rintro ⟨_, ⟨⟨x, t₁, b⟩, hm, hp⟩, hk⟩
    cases hp
    exact ⟨x, t₁, b, hm, hk⟩
  · rintro ⟨x, t₁, b, hm, hk⟩
    exact ⟨_, ⟨_, hm, rfl⟩, hk⟩

theorem Splits.takesApart (h : f.Splits stage modes vars i a target root)
    (hroot : f.derefRoot target = .ok (some root))
    (hrun : (if a.kind = .storeDeref then f.splitVarStore i a root
      else f.splitVarLoad i (f.dest? i) a root).run t = .ok (g, t')) :
    TakesApart t f i a target root t' g := by
  have hmay : ∀ v, f.hasValue v = false → f.Rereads a target v := fun v hv => .inl hv
  have hindex : ∀ v, f.IndexBelow target v → f.Rereads a target v := fun v hv => .inr (.inl hv)
  have h1 : ∀ v, a.srcs[1]? = some v → f.Rereads a target v := fun v hv => .inr (.inr hv)
  split at hrun
  · rename_i hstore
    obtain ⟨written, t₁, b, hbuild, hrun⟩ := buildChannels_bind_eq_ok.mp hrun
    obtain ⟨k, hk, hrun⟩ := lift_bind_eq_ok.mp hrun
    cases hrun
    have hemits : ∀ k < a.width, a.writeMask.testBit k → a.Emits := fun n hn hbit _ => ⟨n, hn, hbit⟩
    obtain ⟨-, _, hmoves, hopen⟩ := (ChannelBuild.storeChannels_leads hemits hmay hindex h.head h1
      hroot _ rfl trivial).of_ok hbuild
    refine .store hstore hmoves (fun he => ?_) hk
    obtain ⟨n, hn, hbit⟩ := he hstore
    exact hopen n hn hbit
  · rename_i hload
    obtain ⟨v, hv, hrun⟩ := lift_bind_eq_ok.mp hrun
    obtain ⟨x, hx, hrun⟩ := lift_bind_eq_ok.mp hrun
    obtain ⟨w, t₁, b, hbuild, hrun⟩ := buildChannels_bind_eq_ok.mp hrun
    obtain ⟨k, hk, hrun⟩ := lift_bind_eq_ok.mp hrun
    obtain ⟨l, hl, hrun⟩ := lift_bind_eq_ok.mp hrun
    cases hrun
    have hemits : a.Emits := fun h => absurd h hload
    obtain ⟨-, _, hmoves, hw, hopen⟩ := (ChannelBuild.loadChannels_leads _ hemits hmay hindex
      h.head h1 hroot _ rfl trivial).of_ok hbuild
    exact .load hload (Checked.orElse_eq_ok.mp hv) hmoves hw hopen hk hl

/-- An access to several channels goes through a deref, and one of a mode that is looked for has a
variable at its root. -/
def Passes (modes : Mode) (vars : Variables) (f : Function) (i : InstrId) : Prop :=
  ∀ a, f.body? i = some (.access a) → a.width ≠ 1 → a.kind.isDerefAccess →
    ∃ target d, a.srcs[0]? = some target ∧ f.deref target = .ok (some d) ∧
      (d.mode.intersects modes → ∃ root x, f.derefRoot target = .ok (some root) ∧
        vars.get? root = some x)

/-- A visit that goes through has found what it looks for, and splits or leaves all as it was. -/
theorem splitVarInstr_visit (h : (splitVarInstr stage modes f i).run t = .ok (g, t')) :
    f.Passes modes t.vars i ∧
      ((g = f ∧ t' = t ∧ ∀ a target root, ¬ f.Splits stage modes t.vars i a target root) ∨
        ∃ a target root, f.Splits stage modes t.vars i a target root ∧
          f.derefRoot target = .ok (some root) ∧
          (if a.kind = .storeDeref then f.splitVarStore i a root
            else f.splitVarLoad i (f.dest? i) a root).run t = .ok (g, t')) := by
  obtain ⟨y, hy, hrun⟩ := lift_bind_eq_ok.mp h
  have hbody : f.body? i = some y.body := by simp [body?, instr_eq_ok.mp hy]
  cases hyb : y.body with
  | access a =>
    rw [hyb] at hbody hrun
    have hsame : ∀ {a'}, f.body? i = some (.access a') → a' = a := by
      intro a' ha'
      simpa [ha'] using hbody
    dsimp only at hrun
    split at hrun
    · rename_i hskip
      cases hrun
      refine ⟨fun a' ha' hwide hkind => ?_, .inl ⟨rfl, rfl, fun a' target root hs => ?_⟩⟩
      · obtain rfl := hsame ha'
        simp [hwide, hkind] at hskip
      · obtain rfl := hsame hs.body
        simp [hs.wide, hs.kind] at hskip
    rename_i hwide
    simp only [Bool.or_eq_true, decide_eq_true_eq, Bool.not_eq_true', not_or,
      Bool.not_eq_false] at hwide
    obtain ⟨target, htarget, hrun⟩ := lift_bind_eq_ok.mp hrun
    have hhead : a.srcs[0]? = some target := Checked.inBounds_eq_ok.mp htarget
    obtain ⟨_, hderef, hrun₁⟩ := lift_bind_eq_ok.mp hrun
    obtain ⟨d, hd, hrun₂⟩ := lift_bind_eq_ok.mp hrun₁
    obtain rfl := Checked.orElse_eq_ok.mp hd
    -- Whatever the tests look at is what the access is split by.
    have hfacts : ∀ {a' target' root'}, f.Splits stage modes t.vars i a' target' root' →
        splitsAccess a.kind d.mode modes ∧ f.Rooted (fun _ => True) root' target ∧
          ∃ x, t.vars.get? root' = some x ∧ x.canSplit stage := by
      intro a' target' root' hs
      obtain rfl := hsame hs.body
      obtain rfl : target' = target := by simpa [hs.head] using hhead
      obtain ⟨d', hd', hmode⟩ := hs.mode
      obtain rfl : d' = d := by simpa [hd'] using hderef
      exact ⟨hmode, hs.chain, hs.var⟩
    have hpasses : (d.mode.intersects modes → ∃ root x, f.derefRoot target = .ok (some root) ∧
        t.vars.get? root = some x) → f.Passes modes t.vars i := by
      intro hroot a' ha' _ _
      obtain rfl := hsame ha'
      exact ⟨target, d, hhead, hderef, hroot⟩
    by_cases hmode : d.mode.intersects modes
    case neg =>
      rw [if_pos (by simpa using hmode)] at hrun₂
      cases hrun₂
      exact ⟨hpasses fun h => absurd h hmode,
        .inl ⟨rfl, rfl, fun _ _ _ hs => hmode (splitsAccess_intersects (hfacts hs).1)⟩⟩
    rw [if_neg (by simpa using hmode)] at hrun₂
    obtain ⟨_, hroot, hrun₃⟩ := lift_bind_eq_ok.mp hrun₂
    obtain ⟨root, hr, hrun₄⟩ := lift_bind_eq_ok.mp hrun₃
    obtain rfl := Checked.orElse_eq_ok.mp hr
    rw [StateT.run_bind, StateT.run_get, pure_bind] at hrun₄
    obtain ⟨x, hx, hrun⟩ := lift_bind_eq_ok.mp hrun₄
    have hvar : t.vars.get? root = some x := Checked.inBounds_eq_ok.mp hx
    refine ⟨hpasses fun _ => ⟨root, x, hroot, hvar⟩, ?_⟩
    by_cases hcan : x.canSplit stage
    case neg =>
      rw [if_pos (by simpa using hcan)] at hrun
      cases hrun
      refine .inl ⟨rfl, rfl, fun a' target root' hs => ?_⟩
      obtain ⟨-, hroot', x', hx', hcan'⟩ := hfacts hs
      obtain rfl : root' = root := (Option.some.inj (hroot'.rootWithin_eq hroot)).symm
      obtain rfl : x' = x := by simpa [hx'] using hvar
      exact hcan hcan'
    rw [if_neg (by simpa using hcan)] at hrun
    by_cases hsplit : splitsAccess a.kind d.mode modes
    case neg =>
      rw [if_pos (by simpa using hsplit)] at hrun
      cases hrun
      exact .inl ⟨rfl, rfl, fun _ _ _ hs => hsplit (hfacts hs).1⟩
    rw [if_neg (by simpa using hsplit)] at hrun
    have hdest : f.dest? i = y.dest := by simp [dest?, instr_eq_ok.mp hy]
    exact .inr ⟨a, target, root, ⟨hbody, hwide.1, hwide.2, hhead, ⟨d, hderef, hsplit⟩,
      rooted_of_rootWithin hroot, x, hvar, hcan⟩, hroot, by rwa [hdest]⟩
  | _ =>
    rw [hyb] at hbody hrun
    cases hrun
    refine ⟨fun a ha => ?_, .inl ⟨rfl, rfl, fun a target root hs => ?_⟩⟩
    · simp [ha] at hbody
    · simp [hs.body] at hbody

/-- What splitting does with one instruction. -/
theorem splitVarInstr_cases (h : (splitVarInstr stage modes f i).run t = .ok (g, t')) :
    (g = f ∧ t' = t ∧ ∀ a target root, ¬ f.Splits stage modes t.vars i a target root) ∨
      ∃ a target root, f.Splits stage modes t.vars i a target root ∧
        TakesApart t f i a target root t' g := by
  obtain ⟨-, hsame | ⟨a, target, root, hs, hroot, hrun⟩⟩ := splitVarInstr_visit h
  · exact .inl hsame
  · exact .inr ⟨a, target, root, hs, hs.takesApart hroot hrun⟩

end Function

end ShaderSSA
