import ShaderSSA.Proofs.Underway

/-! Where the pieces of an access to a variable go. For each channel that it reaches there is one
access, through a chain to the variable that stands for the channel, and no other. -/

namespace ShaderSSA

namespace Function

variable {f g : Function} {i n : InstrId} {v : ValueId} {root source : VarId} {channel : Nat}
  {kind : Intrinsic} {l l' : List ChannelVar}

theorem Rooted.grows {P P' : InstrId → Prop} (h : f.Rooted P root v) (hg : f.Grows i g)
    (hP : ∀ n, P n → P' n) : g.Rooted P' root v := by
  induction h with
  | var hs hn hb => exact .var (hg.source hs) (hP _ hn) (hg.body hb)
  | element hs hn hb _ ih => exact .element (hg.source hs) (hP _ hn) (hg.body hb) ih

theorem Standing.grows (h : f.Standing root v) (hg : f.Grows i g) : g.Standing root v := by
  refine Rooted.grows h hg fun n hn => ?_
  obtain ⟨b, hb⟩ := Option.isSome_iff_exists.mp hn
  simp [hg.home hb]

/-- An access to one channel, through a chain to the variable that stands for it. -/
def Reaches (l : List ChannelVar) (source : VarId) (channel : Nat) (kind : Intrinsic) (f : Function)
    (n : InstrId) : Prop :=
  ∃ b a d c, f.home? n = some b ∧ f.body? n = some (.access a) ∧ a.kind = kind ∧ a.width = 1 ∧
    a.srcs.length ≤ 256 ∧ a.srcs[0]? = some d ∧ c ∈ l ∧ c.source = source ∧
    c.channel = channel ∧ f.Standing c.var d

theorem Reaches.grows (h : f.Reaches l source channel kind n) (hs : l ⊆ l') (hg : f.Grows i g) :
    g.Reaches l' source channel kind n := by
  obtain ⟨b, a, d, c, hb, ha, hk, hw, hlen, hd, hc, hsource, hchannel, hstand⟩ := h
  exact ⟨b, a, d, c, hg.home hb, hg.body ha, hk, hw, hlen, hd, hs hc, hsource, hchannel,
    hstand.grows hg⟩

def NoAccess (g : Function) (news : List InstrId) : Prop :=
  ∀ n ∈ news, ∃ body, g.body? n = some body ∧ body.access? = none

theorem NoAccess.grows {news : List InstrId} (h : f.NoAccess news) (hg : f.Grows i g) :
    g.NoAccess news := by
  intro n hn
  obtain ⟨body, hb, hnone⟩ := h n hn
  exact ⟨body, hg.body hb, hnone⟩

theorem NoAccess.not_access {news : List InstrId} (h : f.NoAccess news) (hn : n ∈ news)
    {a : Access} : f.body? n ≠ some (.access a) := by
  intro ha
  obtain ⟨body, hb, hnone⟩ := h n hn
  obtain rfl := Option.some.inj (hb.symm.trans ha)
  simp [Body.access?] at hnone

theorem NoAccess.append {l l' : List InstrId} (h : f.NoAccess l) (h' : f.NoAccess l') :
    f.NoAccess (l ++ l') :=
  fun n hn => (List.mem_append.mp hn).elim (h n) (h' n)

end Function

theorem Build.OnlyMoves.noAccess {g : Function} {l : List InstrId} (h : OnlyMoves g l) :
    g.NoAccess l := by
  intro n hn
  obtain ⟨o, ho⟩ := h n hn
  exact ⟨_, ho, rfl⟩

namespace ChannelBuild

/-- Channel variables are created and instructions are laid right before `i`. -/
def laying (i : InstrId) : Conduct view where
  ready t := t.2.func.Reached ∧ t.2.func.Stands t.2.cursor i
  rel p news q := p.1.channels ⊆ q.1.channels ∧ p.2.Laid i news q.2
  refl h := ⟨fun _ hc => hc, .refl h.1 i⟩
  trans _ _ h h' := ⟨fun _ hc => h'.1 (h.1 hc), h.2.trans h'.2⟩

/-- Whenever the build succeeds right before `i`, it leaves instructions there, and channel
variables, that are as `Q` says. -/
abbrev Lays {α : Type} (m : ChannelBuild α) (s : Splitting) (f : Function) (i : InstrId)
    (Q : α → Splitting → List InstrId → Function → Prop) : Prop :=
  Obeys True (laying i) m (s, f) fun a news p => Q a p.1 news p.2

theorem Lays.lift {α : Type} {m : Build α} {s : Splitting} {f : Function} {i : InstrId}
    {P : α → List InstrId → Function → Prop} (h : m.Lays f i P) :
    (liftM m : ChannelBuild α).Lays s f i fun a s' news g => s' = s ∧ P a news g :=
  Obeys.carried (fun _ hb => ⟨hb, fun _ _ hb' hl => ⟨hb', fun _ hc => hc, hl⟩⟩) h

section Pieces

variable {s : Splitting} {f : Function} {i : InstrId} {source : VarId} {channel : Nat}
  {a : Access} {first k : Nat}

theorem channelVar_lays (source : VarId) (channel : Nat) :
    (channelVar source channel).Lays s f i fun id s' news _ => news = [] ∧
      ∃ c ∈ s'.channels, c.source = source ∧ c.channel = channel ∧ c.var = id := by
  refine .splitting (.checked fun x _ => .checked fun _ _ => ?_)
  split
  · rename_i c hfind
    obtain ⟨hsource, hchannel⟩ : c.source = source ∧ c.channel = channel := by
      simpa using List.find?_some hfind
    exact .pure ⟨rfl, c, List.mem_of_find?_eq_some hfind, hsource, hchannel, rfl⟩
  · refine .checked fun type _ => ?_
    rintro ⟨s, b⟩ ⟨⟩ hb
    exact ⟨hb, [], ⟨List.subset_append_left _ _, .refl hb.1 i⟩, rfl, _,
      List.mem_append_right _ (List.mem_singleton_self _), rfl, rfl, rfl⟩

theorem derefVar_lays (v : VarId) (x : Variable) :
    (Build.derefVar v x).Lays f i fun d news g => g.NoAccess news ∧ g.Standing v d := by
  refine (Build.insertValue_lays ⟨1, 32⟩ (by simp [Body.srcs])).imp ?_
  rintro d _ g - ⟨n, rfl, -, hc⟩
  obtain ⟨b, hb⟩ := hc.home
  refine ⟨fun m hm => ?_, .var hc.source (by simp [hb]) hc.body⟩
  obtain rfl := List.mem_singleton.mp hm
  exact ⟨_, hc.body, rfl⟩

theorem derefElement_lays {v : VarId} {parent : ValueId} (index : ValueId)
    (hp : f.Standing v parent) :
    (Build.derefElement parent index).Lays f i fun d news g => g.NoAccess news ∧
      g.Standing v d := by
  refine .derefOf fun d _ => ?_
  split
  · refine (Build.insertValue_lays ⟨1, 32⟩ (by simp [Body.srcs])).imp ?_
    rintro d _ g hg ⟨n, rfl, -, hc⟩
    obtain ⟨b, hb⟩ := hc.home
    refine ⟨fun m hm => ?_, .element hc.source (by simp [hb]) hc.body (hp.grows hg.grows)⟩
    obtain rfl := List.mem_singleton.mp hm
    exact ⟨_, hc.body, rfl⟩
  · exact .lift fun _ h => by cases h

theorem repeatSteps_lays {v : VarId} {root : ValueId} :
    ∀ (steps : Nat) (f : Function) (src : ValueId), f.Standing v root →
      (repeatSteps root steps src).Lays f i fun d news g => g.NoAccess news ∧ g.Standing v d
  | 0, f, src, _ => .lift fun _ h => by cases h
  | steps + 1, f, src, hroot => by
    refine .derefOf fun d _ => ?_
    split
    · exact .pure ⟨by simp [Function.NoAccess], hroot⟩
    · rename_i parent index _
      refine (repeatSteps_lays steps f parent hroot).bind fun p news g hg ⟨hnews, hp⟩ => ?_
      refine (derefElement_lays index hp).imp fun d more h hh ⟨hmore, hd⟩ => ?_
      exact ⟨(hnews.grows hh.grows).append hmore, hd⟩

theorem channelDeref_lays (source : VarId) (channel : Nat) (src : ValueId) :
    (channelDeref source channel src).Lays s f i fun d s' news g => g.NoAccess news ∧
      ∃ c ∈ s'.channels, c.source = source ∧ c.channel = channel ∧ g.Standing c.var d := by
  refine (channelVar_lays source channel).bind ?_
  rintro _ _ ⟨s', g⟩ - ⟨rfl, c, hc, hsource, hchannel, rfl⟩
  refine .splitting (.checked fun x _ => ?_)
  refine (Lays.lift (derefVar_lays c.var x)).bind ?_
  rintro root news ⟨s₁, h⟩ - ⟨rfl, hnews, hroot⟩
  refine .liftFunc ((Lays.lift (repeatSteps_lays _ h src hroot)).imp ?_)
  rintro d more ⟨s₂, k⟩ ⟨-, hk⟩ ⟨rfl, hmore, hd⟩
  exact ⟨(hnews.grows hk.grows).append hmore, c, hc, hsource, hchannel, hd⟩

theorem length_extraSources {rest : List ValueId} (h : extraSources a = .ok rest) :
    rest.length ≤ 1 := by
  unfold extraSources at h
  split at h
  · obtain ⟨x, -, hl⟩ := bind_eq_ok.mp h
    cases hl
    exact le_refl 1
  · obtain ⟨x, -, hl⟩ := bind_eq_ok.mp h
    cases hl
    exact le_refl 1
  · cases h
    exact Nat.zero_le 1

/-- What is laid for one channel: one access, behind what leads to it. -/
def LaidFor (source : VarId) (channel : Nat) (kind : Intrinsic) (l : List ChannelVar)
    (news : List InstrId) (g : Function) : Prop :=
  ∃ ways n, news = ways ++ [n] ∧ g.NoAccess ways ∧ g.Reaches l source channel kind n

theorem LaidFor.grows {kind : Intrinsic} {l l' : List ChannelVar} {news : List InstrId}
    {g : Function} (h : LaidFor source channel kind l news f) (hl : l ⊆ l') (hg : f.Grows i g) :
    LaidFor source channel kind l' news g := by
  obtain ⟨ways, n, rfl, hways, hn⟩ := h
  exact ⟨ways, n, rfl, hways.grows hg, hn.grows hl hg⟩

theorem loadChannel_lays (source : VarId) (first bits k : Nat) :
    (loadChannel a source first bits k).Lays s f i fun _ s' news g =>
      LaidFor source (first + k) a.kind s'.channels news g := by
  refine .checked fun channel hchannel => .checked fun target _ => ?_
  obtain ⟨-, rfl⟩ := Checked.fit_eq_ok.mp hchannel
  refine (channelDeref_lays source (first + k) target).bind ?_
  rintro d ways ⟨s', g⟩ - ⟨hways, c, hc, hsource, hchannel, hd⟩
  refine .checked fun rest hrest => ?_
  have hlen := length_extraSources hrest
  refine (Lays.lift (Build.insertValue_lays ⟨1, bits⟩ ?_)).imp ?_
  · simp [Body.srcs, Access.ofSources]
    omega
  · rintro v _ ⟨s₁, h⟩ ⟨-, hh⟩ ⟨rfl, n, rfl, -, hcomp⟩
    obtain ⟨b, hb⟩ := hcomp.home
    refine ⟨ways, n, rfl, hways.grows hh.grows, b, _, d, c, hb, hcomp.body, rfl, rfl, ?_, rfl, hc,
      hsource, hchannel, hd.grows hh.grows⟩
    simp [Access.ofSources]
    omega

theorem storeChannel_lays (source : VarId) (first : Nat) (v : ValueId) (k : Nat)
    (hkind : a.kind = .storeDeref) :
    (storeChannel a source first v k).Lays s f i fun _ s' news g =>
      if a.writeMask.testBit k then LaidFor source (first + k) a.kind s'.channels news g
      else news = [] := by
  refine .checked fun bit hbit => ?_
  obtain ⟨-, rfl⟩ := Checked.maskBit_eq_ok.mp hbit
  cases hmask : a.writeMask.testBit k with
  | false => exact .pure rfl
  | true =>
    refine .checked fun channel hchannel => .checked fun target _ => ?_
    obtain ⟨-, rfl⟩ := Checked.fit_eq_ok.mp hchannel
    refine (channelDeref_lays source (first + k) target).bind ?_
    rintro d ways ⟨s', g⟩ - ⟨hways, c, hc, hsource, hchannel, hd⟩
    refine (Lays.lift (Build.channel_lays v k)).bind ?_
    rintro lane moves ⟨s₁, h⟩ ⟨-, hh⟩ ⟨rfl, hmoves, -, bits, hlane⟩
    refine (Lays.lift (P := fun n ns l => ns = [n] ∧ (∃ b, l.home? n = some b) ∧
      l.body? n = some (.access ⟨.storeDeref, 1, [d, lane], 0, 0, 1⟩))
      (.shape fun s hs => ?_)).bind ?_
    · obtain rfl : s = ⟨1, bits⟩ := by simpa [hlane] using hs.symm
      refine (Build.insert_lays none (by simp [Body.srcs])).imp ?_
      rintro n _ l - ⟨rfl, hj⟩
      exact ⟨rfl, (hj.grown.fresh n (by simp)).2, hj.body⟩
    · rintro n _ ⟨s₂, l⟩ ⟨-, hl⟩ ⟨rfl, rfl, ⟨b, hb⟩, hbody⟩
      refine .pure ⟨ways ++ moves, n, by simp, ?_, b, _, d, c, hb, hbody, hkind.symm, rfl, by simp,
        rfl, hc, hsource, hchannel, (hd.grows hh.grows).grows hl.grows⟩
      exact ((hways.grows hh.grows).grows hl.grows).append (hmoves.noAccess.grows hl.grows)

/-- Accesses, each with the channel it is for, one after the other; among `news` there are no
others. -/
structure Emission (l : List ChannelVar) (source : VarId) (first : Nat) (kind : Intrinsic)
    (hits : List Nat) (emitted : List (Nat × InstrId)) (news : List InstrId) (g : Function) :
    Prop where
  hits : emitted.map (·.1) = hits
  reaches : ∀ p ∈ emitted, g.Reaches l source (first + p.1) kind p.2
  mem : ∀ p ∈ emitted, p.2 ∈ news
  all : ∀ n ∈ news, ∀ a, g.body? n = some (.access a) → n ∈ emitted.map (·.2)

theorem emission_of_forall₂ {kind : Intrinsic} {p : Nat → Bool} {ks : List Nat} {δ : Type}
    {l : List ChannelVar} {ps : List (δ × List InstrId)} {g : Function}
    (h : List.Forall₂ (fun k q =>
      if p k then LaidFor source (first + k) kind l q.2 g else q.2 = []) ks ps) :
    ∃ emitted, Emission l source first kind (ks.filter p) emitted (ps.flatMap (·.2)) g := by
  induction h with
  | nil => exact ⟨[], rfl, by simp, by simp, by simp⟩
  | @cons k q ks ps hq _ ih =>
    obtain ⟨emitted, hhits, hreaches, hmem, hall⟩ := ih
    cases hp : p k with
    | false =>
      obtain hnil : q.2 = [] := by simpa [hp] using hq
      refine ⟨emitted, by simp [hp, hhits], hreaches, ?_, ?_⟩ <;> rw [List.flatMap_cons, hnil]
      · exact hmem
      · exact hall
    | true =>
      rw [if_pos hp] at hq
      obtain ⟨ways, n, hnews, hways, hn⟩ := hq
      refine ⟨(k, n) :: emitted, by simp [hp, hhits], List.forall_mem_cons.mpr ⟨hn, hreaches⟩,
        List.forall_mem_cons.mpr ⟨by simp [hnews], fun q hq => ?_⟩, fun m hm a ha => ?_⟩
      · exact List.mem_append_right _ (hmem q hq)
      · rw [List.flatMap_cons, hnews, List.mem_append, List.mem_append, List.mem_singleton] at hm
        rcases hm with (hm | rfl) | hm
        · exact absurd ha (hways.not_access hm)
        · exact List.mem_cons_self
        · exact List.mem_cons_of_mem n (hall m hm a ha)

theorem Emission.grows {kind : Intrinsic} {hits : List Nat} {emitted : List (Nat × InstrId)}
    {l : List ChannelVar} {news more : List InstrId} {g : Function}
    (h : Emission l source first kind hits emitted news f) (hg : f.Laid i more g)
    (hnews : ∀ n ∈ news, ∃ b, f.home? n = some b) (hmore : g.NoAccess more) :
    Emission l source first kind hits emitted (news ++ more) g := by
  refine ⟨h.hits, fun p hp => (h.reaches p hp).grows (fun _ hx => hx) hg.grows,
    fun p hp => List.mem_append_left _ (h.mem p hp), fun n hn a ha => ?_⟩
  rcases List.mem_append.mp hn with hn | hn
  · obtain ⟨b, hb⟩ := hnews n hn
    obtain ⟨x, hx, -⟩ := Function.home?_eq_some.mp hb
    exact h.all n hn a ((hg.grown.body hx).symm.trans ha)
  · exact absurd ha (hmore.not_access hn)

theorem loadChannels_lays (source : VarId) (bits : Nat) (hw : a.width ≠ 1) :
    (loadChannels a source bits).Lays s f i fun w s' news g =>
      f.hasValue w = false ∧ g.isPlace w = false ∧ ∃ x emitted, s.vars.get? source = some x ∧
        Emission s'.channels source x.channel a.kind (List.range a.width) emitted news g := by
  refine .splitting (.checked fun x hx => ?_)
  have hx : s.vars.get? source = some x := Checked.inBounds_eq_ok.mp hx
  refine (Obeys.mapM (E := laying i) (I := fun _ => True)
    (T := fun k _ ns p => LaidFor source (x.channel + k) a.kind p.1.channels ns p.2)
    (fun _ _ _ _ _ => trivial) (fun _ _ _ _ _ _ hg h => h.grows hg.1 hg.2.grows)
    (fun k _ p _ => loadChannel_lays source x.channel bits k) trivial).bind ?_
  rintro _ _ ⟨s', g⟩ ⟨-, hg⟩ ⟨ps, rfl, rfl, hall⟩
  obtain ⟨emitted, he⟩ := emission_of_forall₂ (p := fun _ => true)
    (hall.imp fun k q hq => (if_pos rfl).mpr hq)
  have hlen : (ps.map (·.1)).length ≠ 1 := by
    rwa [List.length_map, ← hall.length_eq, List.length_range]
  refine (Lays.lift (Build.vec_lays hlen)).imp ?_
  rintro w _ ⟨s₁, h⟩ ⟨-, hh⟩ ⟨rfl, n, op, bits', rfl, hfresh, -, hc⟩
  refine ⟨hg.grown.absent hfresh, ?_, x, emitted, hx, ?_⟩
  · rw [Function.isPlace_eq hc.source hc.body]
    rfl
  · rw [List.filter_true] at he
    refine he.grows hh (fun m hm => (hg.grown.fresh m hm).2) fun m hm => ?_
    obtain rfl := List.mem_singleton.mp hm
    exact ⟨_, hc.body, rfl⟩

theorem storeChannels_lays (source : VarId) (hkind : a.kind = .storeDeref) :
    (storeChannels a source).Lays s f i fun _ s' news g =>
      ∃ x emitted, s.vars.get? source = some x ∧ Emission s'.channels source x.channel a.kind
        ((List.range a.width).filter (a.writeMask.testBit ·)) emitted news g := by
  refine .splitting (.checked fun x hx => .checked fun stored _ => ?_)
  have hx : s.vars.get? source = some x := Checked.inBounds_eq_ok.mp hx
  refine (Lays.lift (Build.materialize_lays stored a.width)).bind ?_
  rintro v moves ⟨s', g⟩ - ⟨rfl, hmoves, -⟩
  refine (Obeys.mapM (E := laying i) (I := fun _ => True)
    (T := fun k _ ns p => if a.writeMask.testBit k then
      LaidFor source (x.channel + k) a.kind p.1.channels ns p.2 else ns = [])
    (fun _ _ _ _ _ => trivial) ?_
    (fun k _ p _ => storeChannel_lays source x.channel v k hkind) trivial).imp ?_
  · intro k _ ns _ _ _ hg hlaid
    by_cases hmask : a.writeMask.testBit k
    · rw [if_pos hmask] at hlaid ⊢
      exact hlaid.grows hg.1 hg.2.grows
    · rw [if_neg hmask] at hlaid ⊢
      exact hlaid
  · rintro _ _ ⟨s₁, h⟩ ⟨-, hh⟩ ⟨ps, rfl, rfl, hall⟩
    obtain ⟨emitted, he⟩ := emission_of_forall₂ hall
    refine ⟨x, emitted, hx, he.hits, he.reaches,
      fun p hp => List.mem_append_right _ (he.mem p hp), fun n hn b hb => ?_⟩
    rcases List.mem_append.mp hn with hn | hn
    · exact absurd hb ((hmoves.noAccess.grows hh.grows).not_access hn)
    · exact he.all n hn b hb

end Pieces

end ChannelBuild

/-- The channels that an access reaches, counted from its first. -/
def Access.hits (a : Access) : List Nat :=
  if a.kind = .storeDeref then (List.range a.width).filter (a.writeMask.testBit ·)
  else List.range a.width

namespace Function

variable {f g k : Function} {i : InstrId} {b : BlockId} {a : Access} {root : VarId}
  {t t' : Splitting}

/-- An instruction goes, once its readers, if it has a value, have gone over to something new that
is no place. -/
inductive Leaves (f k : Function) (i : InstrId) (g : Function) : Prop
  | load {v w : ValueId} {l : Function} : f.dest? i = some v → f.hasValue w = false →
      k.isPlace w = false → k.replaceUses v w = .ok l → l.remove i = .ok g → Leaves f k i g
  | store : k.remove i = .ok g → Leaves f k i g

/-- Taking an access apart: its pieces are laid, and it goes. -/
theorem splitVar_lays (hf : f.Reached) (hi : f.home? i = some b) (hw : a.width ≠ 1)
    (hrun : (if a.kind = .storeDeref then f.splitVarStore i a root
      else f.splitVarLoad i (f.dest? i) a root).run t = .ok (g, t')) :
    ∃ x k news emitted, t.vars.get? root = some x ∧ f.Laid i news k ∧
      ChannelBuild.Emission t'.channels root x.channel a.kind a.hits emitted news k ∧
      f.Leaves k i g := by
  have hst := stands_before hf.linked.placed hi
  split at hrun
  · rename_i hstore
    obtain ⟨written, t₁, c, hbuild, hrun⟩ := buildChannels_bind_eq_ok.mp hrun
    obtain ⟨l, hl, hrun⟩ := lift_bind_eq_ok.mp hrun
    cases hrun
    obtain ⟨-, news, ⟨-, hlaid⟩, x, emitted, hx, he⟩ :=
      (ChannelBuild.storeChannels_lays root hstore _ rfl ⟨hf, hst⟩).of_ok hbuild
    refine ⟨x, c.func, news, emitted, hx, hlaid, ?_, .store hl⟩
    rw [Access.hits, if_pos hstore]
    exact he
  · rename_i hload
    obtain ⟨v, hv, hrun⟩ := lift_bind_eq_ok.mp hrun
    obtain ⟨y, hy, hrun⟩ := lift_bind_eq_ok.mp hrun
    obtain ⟨w, t₁, c, hbuild, hrun⟩ := buildChannels_bind_eq_ok.mp hrun
    obtain ⟨l, hl, hrun⟩ := lift_bind_eq_ok.mp hrun
    obtain ⟨g', hg, hrun⟩ := lift_bind_eq_ok.mp hrun
    cases hrun
    obtain ⟨-, news, ⟨-, hlaid⟩, hfresh, hplace, x, emitted, hx, he⟩ :=
      (ChannelBuild.loadChannels_lays root _ hw _ rfl ⟨hf, hst⟩).of_ok hbuild
    refine ⟨x, c.func, news, emitted, hx, hlaid, ?_,
      .load (Checked.orElse_eq_ok.mp hv) hfresh hplace hl hg⟩
    rw [Access.hits, if_neg hload]
    exact he

end Function

end ShaderSSA
