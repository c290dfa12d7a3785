import ShaderSSA.Proofs.FlatLaying
import ShaderSSA.Proofs.Underway

/-! What a split of flat accesses makes of each block. Every access gives way to the accesses to
its channels, in their order; all else stays where it is and reads what was put together for a
load in place of what was loaded. -/

namespace ShaderSSA

theorem Body.mapSrcs_of_fixed {body : Body} {ρ : ValueId → ValueId}
    (h : ∀ v ∈ body.srcs, ρ v = v) : (body.mapSrcs fun _ => ρ) = body :=
  (mapSrcs_congr fun _ v hv => h v (List.mem_of_getElem? hv)).trans (mapSrcs_id body)

theorem ChannelAccess.Follows.dropped {f g k : Function} {i : InstrId} {a : Access}
    {x y : ChannelAccess} (hxy : x.Follows f k y) (hb : k.body? i = some (.access a))
    (hdrop : k.Dropped i g) : x.Follows f g y := by
  cases hxy with
  | load => exact .load
  | store ht =>
    refine .store (Relation.ReflTransGen.mono ?_ _ _ ht)
    rintro p q ⟨n, o, hs, ⟨c, hc⟩, hnew, hbody, hrest⟩
    have hni : n ≠ i := by
      rintro rfl
      simp [hb] at hbody
    exact ⟨n, o, by rw [hdrop.source, hs], ⟨c, by rw [hdrop.home, if_neg hni, hc]⟩, hnew,
      by rw [hdrop.body, hbody], hrest⟩

namespace Function

variable {f g k : Function} {i j n : InstrId} {b : BlockId} {a : Access} {v w : ValueId}
  {news : List InstrId} {modes : Mode} {ρ ρ' : ValueId → ValueId}
  {pieces pieces' : InstrId → List InstrId}

/-- What an instruction of `f` gives way to in `g`. -/
inductive Unfolds (modes : Mode) (f : Function) (ρ : ValueId → ValueId) (g : Function)
    (j : InstrId) : List InstrId → Prop
  | keep {body : Body} : f.body? j = some body → g.body? j = some (body.mapSrcs fun _ => ρ) →
      g.dest? j = f.dest? j → g.home? j = f.home? j → Unfolds modes f ρ g j [j]
  | load {a : Access} {offset v : ValueId} {rest : List ValueId} {bits bits' : Nat}
      {qs : List (InstrId × ValueId)} {n : InstrId} {op : AluOp} :
      f.body? j = some (.access a) → a.kind = .loadInput → a.srcs = offset :: rest →
      a.width ≠ 1 → modes.input → f.dest? j = some v →
      (∀ m ∈ qs.map (·.1) ++ [n], f.body? m = none) →
      List.Forall₂ (fun k q => g.Computes q.1 (channelLoad a (ρ offset) k) q.2 ⟨1, bits⟩)
        (List.range a.width) qs →
      AluOp.construct? a.width = some op →
      g.Computes n (.alu ⟨op, qs.map fun q => .channel q.2 0⟩) (ρ v) ⟨a.width, bits'⟩ →
      Unfolds modes f ρ g j (qs.map (·.1) ++ [n])
  | store {a : Access} {stored offset : ValueId} {rest : List ValueId} {news : List InstrId} :
      f.body? j = some (.access a) → a.kind = .storeOutput → a.srcs = stored :: offset :: rest →
      a.width ≠ 1 → modes.output → f.dest? j = none →
      (∀ n ∈ news, f.body? n = none ∧ (∃ b, g.home? n = some b) ∧ StorePiece a (ρ offset) g n) →
      List.Forall₂ (ChannelAccess.Follows f g) (a.channels.map (·.rename ρ))
        (news.flatMap g.channelsAt) →
      Unfolds modes f ρ g j news

/-- `g` is `f` with `pieces` in place of its instructions, where only the values of those that are
gone have another name. -/
structure Scalarizes (modes : Mode) (f : Function) (ρ : ValueId → ValueId)
    (pieces : InstrId → List InstrId) (g : Function) : Prop where
  blocks : ∀ b, g.blockInstrs b = (f.blockInstrs b).flatMap pieces
  each : ∀ j b, f.home? j = some b → Unfolds modes f ρ g j (pieces j)
  renamed : ∀ v, ρ v ≠ v → ∃ j b, f.home? j = some b ∧ f.dest? j = some v ∧ j ∉ pieces j
  terminator : ∀ b, g.terminator? b = (f.terminator? b).map (·.rename ρ)
  source : ∀ v j, f.source? v = some j → g.source? v = some j
  shape : ∀ v s, f.shape? v = some s → g.shape? v = some s
  known : ∀ n body, f.body? n = some body → ∃ body', g.body? n = some body'

theorem Scalarizes.refl (modes : Mode) (f : Function) :
    Scalarizes modes f (fun v => v) (fun j => [j]) f where
  blocks b := by simp
  each j b hj := by
    obtain ⟨x, hx, -⟩ := home?_eq_some.mp hj
    have hb : f.body? j = some x.body := by simp [body?, hx]
    exact .keep hb (by rw [hb, Body.mapSrcs_id]) rfl rfl
  renamed v hv := absurd rfl hv
  terminator b := by simp [Terminator.rename_id]
  source _ _ hv := hv
  shape _ _ hv := hv
  known n body hb := ⟨body, hb⟩

theorem Unfolds.piece (h : Unfolds modes f ρ g j news) (hn : n ∈ news) : n = j ∧ news = [j] ∨
    f.body? n = none ∧ (∃ b, g.home? n = some b) ∧
      ∃ body, g.body? n = some body ∧ body.isWide = false := by
  cases h with
  | keep => exact .inl ⟨List.mem_singleton.mp hn, rfl⟩
  | load _ _ _ _ _ _ hnew hloads _ hc =>
    refine .inr ⟨hnew n hn, ?_⟩
    rcases List.mem_append.mp hn with hn | hn
    · obtain ⟨q, hq, rfl⟩ := List.mem_map.mp hn
      obtain ⟨k, -, hq⟩ := exists_of_forall₂ hloads hq
      exact ⟨hq.home, _, hq.body, rfl⟩
    · obtain rfl := List.mem_singleton.mp hn
      exact ⟨hc.home, _, hc.body, rfl⟩
  | store _ _ _ _ _ _ hnew =>
    obtain ⟨hnone, hhome, hp⟩ := hnew n hn
    exact .inr ⟨hnone, hhome, hp.narrow⟩

theorem Unfolds.kept (h : Unfolds modes f ρ g j news) (hj : j ∈ news) : news = [j] ∧
    g.dest? j = f.dest? j ∧ g.home? j = f.home? j ∧
      ∃ body, f.body? j = some body ∧ g.body? j = some (body.mapSrcs fun _ => ρ) := by
  cases h with
  | keep hb hbody hdest hhome => exact ⟨rfl, hdest, hhome, _, hb, hbody⟩
  | load hb _ _ _ _ _ hnew => simp [hnew j hj] at hb
  | store hb _ _ _ _ _ hnew => simp [(hnew j hj).1] at hb

namespace Scalarizes

variable (h : Scalarizes modes f ρ pieces g)
include h

theorem keeps {body : Body} (hj : f.home? j = some b) (hb : f.body? j = some body)
    (hw : body.isWide = false) : pieces j = [j] ∧ g.body? j = some (body.mapSrcs fun _ => ρ) ∧
      g.dest? j = f.dest? j ∧ g.home? j = some b := by
  have hu := h.each j b hj
  generalize pieces j = l at hu
  cases hu with
  | keep hb' hbody hdest hhome =>
    obtain rfl := Option.some.inj (hb'.symm.trans hb)
    exact ⟨rfl, hbody, hdest, hhome.trans hj⟩
  | load hb' _ _ hwide | store hb' _ _ hwide =>
    obtain rfl := Option.some.inj (hb'.symm.trans hb)
    simp [Body.isWide, hwide] at hw

theorem fixed (hf : f.Defined) {body : Body} (hs : f.source? v = some j)
    (hb : f.body? j = some body) (hw : body.isWide = false) : ρ v = v := by
  by_contra hne
  obtain ⟨j', b, hj, hd, hgone⟩ := h.renamed v hne
  obtain rfl : j' = j := Option.some.inj (((hf.iff j' v).mp hd).symm.trans hs)
  simp [(h.keeps hj hb hw).1] at hgone

theorem computes {body : Body} {s : Shape} (hc : f.Computes n body v s)
    (hw : body.isWide = false) : g.Computes n (body.mapSrcs fun _ => ρ) v s := by
  obtain ⟨b, hb⟩ := hc.home
  obtain ⟨-, hbody, hdest, hhome⟩ := h.keeps hb hc.body hw
  exact ⟨⟨b, hhome⟩, hbody, hdest.trans hc.dest, h.source v n hc.source, h.shape v s hc.shape⟩

theorem traces (hf : f.Defined) {f₀ : Function} {p q : ValueId × Nat} (ht : f₀.Traces f p q) :
    f₀.Traces g (ρ p.1, p.2) (ρ q.1, q.2) := by
  refine Relation.ReflTransGen.lift (fun x : ValueId × Nat => (ρ x.1, x.2)) ?_ p q ht
  rintro p q ⟨n, o, hs, ⟨b, hb⟩, hnew, hbody, hvalue, hlane⟩
  obtain ⟨-, hbody', -, hhome⟩ := h.keeps hb hbody rfl
  refine ⟨n, { o with value := ρ o.value }, ?_, ⟨b, hhome⟩, hnew, hbody', congrArg ρ hvalue, hlane⟩
  change g.source? (ρ p.1) = some n
  rw [h.fixed hf hs hbody rfl]
  exact h.source p.1 n hs

theorem follows (hf : f.Defined) {f₀ : Function} {x y : ChannelAccess} (hxy : x.Follows f₀ f y) :
    (x.rename ρ).Follows f₀ g (y.rename ρ) := by
  cases hxy with
  | load => exact .load
  | store ht => exact .store (h.traces hf ht)

theorem storePiece {offset : ValueId} (hn : f.home? n = some b) (hp : StorePiece a offset f n) :
    StorePiece a (ρ offset) g n := by
  rcases hp with ⟨o, ho⟩ | ⟨lane, k, hb⟩
  · exact .inl ⟨_, (h.keeps hn ho rfl).2.1⟩
  · exact .inr ⟨ρ lane, k, (h.keeps hn hb rfl).2.1⟩

theorem channelsAt {body : Body} (hn : f.home? n = some b) (hb : f.body? n = some body)
    (hw : body.isWide = false) : g.channelsAt n = (f.channelsAt n).map (·.rename ρ) := by
  rw [channelsAt_eq hb, channelsAt_eq (h.keeps hn hb hw).2.1, Body.channels_mapSrcs]

theorem unknown (hn : g.body? n = none) : f.body? n = none := by
  cases hb : f.body? n with
  | none => rfl
  | some body =>
    obtain ⟨body', hb'⟩ := h.known n body hb
    simp [hb'] at hn

end Scalarizes

theorem Unfolds.later (hu : Unfolds modes f ρ g j news) (hj : j ∉ news)
    (h : Scalarizes modes g ρ' pieces' k) (hg : g.Defined) :
    Unfolds modes f (fun v => ρ' (ρ v)) k j news := by
  cases hu with
  | keep => simp at hj
  | @load a offset v rest bits bits' qs n op hb hk hsrc hw hm hd hnew hloads hop hc =>
    have hvec := h.computes hc rfl
    rw [Body.mapSrcs_of_fixed fun x hx => ?_, ← h.fixed hg hc.source hc.body rfl] at hvec
    · exact .load hb hk hsrc hw hm hd hnew (hloads.imp fun _ q hq => h.computes hq rfl) hop hvec
    · obtain ⟨q, hq, rfl⟩ : ∃ q ∈ qs, q.2 = x := by simpa [Body.srcs, Operand.channel] using hx
      obtain ⟨k, -, hq⟩ := exists_of_forall₂ hloads hq
      exact h.fixed hg hq.source hq.body rfl
  | store hb hk hsrc hw hm hd hnew hfollows =>
    refine .store hb hk hsrc hw hm hd (fun n hn => ?_) ?_
    · obtain ⟨hnone, ⟨b, hhome⟩, hp⟩ := hnew n hn
      obtain ⟨body, hbody, hnarrow⟩ := hp.narrow
      exact ⟨hnone, ⟨b, (h.keeps hhome hbody hnarrow).2.2.2⟩, h.storePiece hhome hp⟩
    · have hchannels : news.flatMap k.channelsAt =
          (news.flatMap g.channelsAt).map (·.rename ρ') := by
        rw [List.map_flatMap]
        refine List.flatMap_congr fun n hn => ?_
        obtain ⟨-, ⟨b, hhome⟩, hp⟩ := hnew n hn
        obtain ⟨body, hbody, hnarrow⟩ := hp.narrow
        exact h.channelsAt hhome hbody hnarrow
      rw [hchannels, List.forall₂_map_right_iff]
      have hrenamed := hfollows.imp fun x y hxy => h.follows hg hxy
      rw [List.forall₂_map_left_iff] at hrenamed ⊢
      refine hrenamed.imp fun x y hxy => ?_
      rwa [ChannelAccess.rename_rename] at hxy

theorem Unfolds.earlier {body : Body} (hb : f.body? j = some body)
    (hbody : g.body? j = some (body.mapSrcs fun _ => ρ)) (hdest : g.dest? j = f.dest? j)
    (hhome : g.home? j = f.home? j) (hfix : ∀ v, f.dest? j = some v → ρ v = v)
    (hnew : ∀ n, g.body? n = none → f.body? n = none)
    (hu : Unfolds modes g ρ' k j news) : Unfolds modes f (fun v => ρ' (ρ v)) k j news := by
  cases hu with
  | keep hb' hbody' hdest' hhome' =>
    obtain rfl := Option.some.inj (hbody.symm.trans hb')
    refine .keep hb ?_ (hdest'.trans hdest) (hhome'.trans hhome)
    rw [hbody', Body.mapSrcs_mapSrcs]
  | @load _ offset' v rest' _ _ _ _ _ hb' hk hsrc hw hm hd hnew' hloads hop hc =>
    obtain ⟨a, rfl, rfl⟩ := Body.mapSrcs_eq_access.mp (Option.some.inj (hbody.symm.trans hb'))
    obtain ⟨offset, rest, hsrcs, rfl⟩ : ∃ offset rest, a.srcs = offset :: rest ∧
        ρ offset = offset' := by
      rcases hs : a.srcs with _ | ⟨offset, rest⟩
      · simp [hs] at hsrc
      · simp only [hs, List.mapIdx_cons, List.cons.injEq] at hsrc
        exact ⟨offset, rest, rfl, hsrc.1⟩
    rw [hdest] at hd
    rw [← hfix v hd] at hc
    exact .load hb hk hsrcs hw hm hd (fun n hn => hnew n (hnew' n hn)) hloads hop hc
  | @store _ stored' offset' rest' _ hb' hk hsrc hw hm hd hnew' hfollows =>
    obtain ⟨a, rfl, rfl⟩ := Body.mapSrcs_eq_access.mp (Option.some.inj (hbody.symm.trans hb'))
    obtain ⟨stored, offset, rest, hsrcs, rfl⟩ : ∃ stored offset rest,
        a.srcs = stored :: offset :: rest ∧ ρ offset = offset' := by
      rcases hs : a.srcs with _ | ⟨stored, _ | ⟨offset, rest⟩⟩
      · simp [hs] at hsrc
      · simp [hs] at hsrc
      · simp only [hs, List.mapIdx_cons, List.cons.injEq] at hsrc
        exact ⟨stored, offset, rest, rfl, hsrc.2.1⟩
    refine .store hb hk hsrcs hw hm (hdest ▸ hd) (fun n hn => ?_) ?_
    · obtain ⟨hnone, hrest⟩ := hnew' n hn
      exact ⟨hnew n hnone, hrest⟩
    · have hchannels : Access.channels { a with srcs := a.srcs.mapIdx fun _ => ρ } =
          a.channels.map (·.rename ρ) := Body.channels_mapSrcs (.access a) ρ
      rw [hchannels, List.map_map] at hfollows
      rw [List.forall₂_map_left_iff] at hfollows ⊢
      refine hfollows.imp fun x y hxy => ?_
      rw [Function.comp_apply, ChannelAccess.rename_rename] at hxy
      exact hxy.since hnew

theorem Scalarizes.trans (h : Scalarizes modes f ρ pieces g) (h' : Scalarizes modes g ρ' pieces' k)
    (hf : f.Linked) (hg : g.Linked) :
    Scalarizes modes f (fun v => ρ' (ρ v)) (fun j => (pieces j).flatMap pieces') k := by
  -- Pieces access one channel each, so the second split leaves those of the first alone.
  have hlater : ∀ j b, f.home? j = some b → j ∉ pieces j →
      (pieces j).flatMap pieces' = pieces j := by
    intro j b hj hgone
    refine (List.flatMap_congr fun n hn => ?_).trans (List.flatMap_singleton' _)
    obtain ⟨rfl, -⟩ | ⟨-, ⟨d, hd⟩, body, hbody, hnarrow⟩ := (h.each j b hj).piece hn
    · exact absurd hn hgone
    · exact (h'.keeps hd hbody hnarrow).1
  refine ⟨fun b => ?_, fun j b hj => ?_, fun v hv => ?_, fun b => ?_,
    fun v j hv => h'.source v j (h.source v j hv), fun v s hv => h'.shape v s (h.shape v s hv),
    fun n body hb => ?_⟩
  · rw [h'.blocks, h.blocks, List.flatMap_assoc]
  · by_cases hgone : j ∈ pieces j
    · obtain ⟨hl, hdest, hhome, body, hb, hbody⟩ := (h.each j b hj).kept hgone
      rw [hl, List.flatMap_singleton]
      refine (h'.each j b (hhome.trans hj)).earlier hb hbody hdest hhome (fun v hd => ?_)
        fun n => h.unknown
      by_contra hne
      obtain ⟨j', b', -, hd', hgone'⟩ := h.renamed v hne
      obtain rfl : j' = j :=
        Option.some.inj (((hf.defined.iff j' v).mp hd').symm.trans ((hf.defined.iff j v).mp hd))
      exact hgone' hgone
    · rw [hlater j b hj hgone]
      exact (h.each j b hj).later hgone h' hg.defined
  · by_cases hρ : ρ v = v
    -- The second split renames: what it takes apart is no piece, so the first has kept it.
    · rw [hρ] at hv
      obtain ⟨j, b, hj, hd, hgone⟩ := h'.renamed v hv
      have hmem := hg.placed.mem_iff.mpr hj
      rw [h.blocks] at hmem
      obtain ⟨j₀, hj₀, hmem⟩ := List.mem_flatMap.mp hmem
      have hhome := hf.placed.mem_iff.mp hj₀
      obtain ⟨rfl, hl⟩ | ⟨-, -, body, hbody, hnarrow⟩ := (h.each j₀ b hhome).piece hmem
      · refine ⟨j, b, hhome, ?_, by rwa [hl, List.flatMap_singleton]⟩
        rw [← hd, ((h.each j b hhome).kept hmem).2.1]
      · simp [(h'.keeps hj hbody hnarrow).1] at hgone
    · obtain ⟨j, b, hj, hd, hgone⟩ := h.renamed v hρ
      exact ⟨j, b, hj, hd, by rwa [hlater j b hj hgone]⟩
  · rw [h'.terminator, h.terminator, Option.map_map]
    congr 1
    funext t
    exact t.rename_rename ρ ρ'
  · obtain ⟨body', hb'⟩ := h.known n body hb
    exact h'.known n body' hb'

/-- The channels that an instruction accesses are accessed in its place, in the same order. -/
theorem Unfolds.channels (hu : Unfolds modes f ρ g j news) :
    List.Forall₂ (ChannelAccess.Follows f g) ((f.channelsAt j).map (·.rename ρ))
      (news.flatMap g.channelsAt) := by
  cases hu with
  | keep hb hbody =>
    rw [List.flatMap_singleton, channelsAt_eq hb, channelsAt_eq hbody, Body.channels_mapSrcs]
    exact List.forall₂_same.mpr fun x _ => .refl f g x
  | @load a offset v rest bits bits' qs n op hb hk hsrc _ _ _ _ hloads _ hc =>
    have hload : f.channelsAt j =
        (List.range a.width).map fun k => .load a.base (a.component + k) offset := by
      rw [channelsAt_eq hb]
      simp only [Body.channels, Access.channels, hk, hsrc]
    have hvec : g.channelsAt n = [] := channelsAt_eq hc.body
    rw [hload, List.flatMap_append, flatMap_channelsAt_loads hloads, List.flatMap_singleton, hvec,
      List.append_nil, List.map_map]
    exact List.forall₂_same.mpr fun x _ => .refl f g x
  | store hb hk hsrc _ _ _ _ hfollows =>
    rw [channelsAt_eq hb]
    exact hfollows

theorem Scalarizes.channels (h : Scalarizes modes f ρ pieces g) (hf : f.Placed) (b : BlockId) :
    List.Forall₂ (ChannelAccess.Follows f g) ((f.channels b).map (·.rename ρ)) (g.channels b) := by
  have hhome : ∀ j ∈ f.blockInstrs b, f.home? j = some b := fun j hj => hf.mem_iff.mp hj
  rw [Function.channels, Function.channels, h.blocks, List.flatMap_assoc, List.map_flatMap]
  generalize f.blockInstrs b = l at hhome
  induction l with
  | nil => exact .nil
  | cons j l ih =>
    exact List.rel_append (h.each j b (hhome j List.mem_cons_self)).channels
      (ih fun n hn => hhome n (List.mem_cons_of_mem j hn))

theorem scalarizes_of_replaced (hl : f.Laid i news k) (hr : Replaced k i ρ g)
    (hi : f.home? i = some b) (hfix : ∀ v, ρ v ≠ v → f.dest? i = some v)
    (hknown : ∀ n body, k.body? n = some body → ∃ body', g.body? n = some body')
    (hu : Unfolds modes f ρ g i news) :
    Scalarizes modes f ρ (fun j => if j = i then news else [j]) g where
  blocks d := by
    rw [hr.blocks, hl.grown.blocks, List.filter_flatMap]
    refine List.flatMap_congr fun j _ => ?_
    by_cases hj : j = i
    · have hnews : news.filter (· != i) = news := by
        refine List.filter_eq_self.mpr fun n hn => bne_iff_ne.mpr ?_
        rintro rfl
        exact hl.apart hn
      simp [hj, List.filter_append, hnews]
    · simp [hj]
  each j d hj := by
    by_cases hji : j = i
    · rw [if_pos hji, hji]
      exact hu
    · rw [if_neg hji]
      obtain ⟨x, hx, -⟩ := home?_eq_some.mp hj
      have hb : f.body? j = some x.body := by simp [body?, hx]
      have hhome := hl.grown.home hx
      refine .keep hb ?_ ?_ ?_
      · rw [hr.body j d (hhome.trans hj), hl.grown.body hx, hb]
        rfl
      · rw [hr.dest, hl.grown.destOld hx]
      · rw [hr.home, if_neg hji, hhome]
  renamed v hv := ⟨i, b, hi, hfix v hv, by simpa using hl.apart⟩
  terminator d := by rw [hr.terminator, hl.grown.terminator]
  source v j hv := by
    rw [hr.source]
    exact hl.grown.source v j hv
  shape v s hv := by
    rw [hr.shape]
    exact hl.grown.shape v s hv
  known n body hb := hknown n body (hl.grows.body hb)

theorem Replaced.computes {body : Body} {s : Shape} (hr : Replaced k i ρ g)
    (hc : k.Computes n body v s) (hn : n ≠ i) : g.Computes n (body.mapSrcs fun _ => ρ) v s := by
  obtain ⟨b, hb⟩ := hc.home
  refine ⟨⟨b, by rw [hr.home, if_neg hn, hb]⟩, by rw [hr.body n b hb, hc.body]; rfl, ?_, ?_, ?_⟩
  · rw [hr.dest, hc.dest]
  · rw [hr.source, hc.source]
  · rw [hr.shape, hc.shape]

theorem known_of_remove (hr : f.remove i = .ok g) {body : Body} (hb : f.body? n = some body) :
    ∃ body', g.body? n = some body' :=
  ⟨body, by rw [(dropped_of_remove hr).body, hb]⟩

theorem known_of_replaceUses (hr : f.replaceUses v w = .ok g) {body : Body}
    (hb : f.body? n = some body) : ∃ body', g.body? n = some body' := by
  obtain ⟨us, -, hbody⟩ := (handed_of_replaceUses hr).body
  exact ⟨_, by rw [hbody, hb]; rfl⟩

theorem lays_of_build {α : Type} {m : Build α} {x : α} {Q : α → List InstrId → Function → Prop}
    (hm : m.Lays f i Q) (hf : f.Reached) (hi : f.home? i = some b)
    (hb : f.build (.before i) m = .ok (x, g)) : ∃ news, f.Laid i news g ∧ Q x news g := by
  simp only [build, bind_eq_ok] at hb
  obtain ⟨⟨x', b'⟩, hrun, heq⟩ := hb
  cases heq
  exact ((hm _ rfl ⟨hf, stands_before hf.linked.placed hi⟩).of_ok hrun).2

/-- One access is split: its channels are counted, and those of its width that are masked. -/
structure Tallies (a : Access) (stats stats' : SplitStats) : Prop where
  emitted : stats'.emitted = stats.emitted + a.channels.length
  all : stats'.emitted + stats'.masked = stats.emitted + stats.masked + a.width

theorem tallies_countLoad {offset : ValueId} {rest : List ValueId} (hk : a.kind = .loadInput)
    (hsrcs : a.srcs = offset :: rest) (stats : SplitStats) :
    Tallies a stats (stats.countLoad a.width) := by
  have hchannels : a.channels.length = a.width := by simp [Access.channels, hk, hsrcs]
  exact ⟨by simp [SplitStats.countLoad, hchannels], by simp [SplitStats.countLoad]; omega⟩

theorem tallies_countStore {stored offset : ValueId} {rest : List ValueId}
    (hk : a.kind = .storeOutput) (hsrcs : a.srcs = stored :: offset :: rest) (stats : SplitStats) :
    Tallies a stats (stats.countStore ((List.range a.width).map a.writeMask.testBit)) := by
  refine ⟨?_, ?_⟩
  · simp only [SplitStats.countStore, Access.channels, hk, hsrcs]
    rw [List.length_map, ← List.countP_eq_length_filter, List.count, List.countP_map]
    congr 2
    funext c
    simp
  · have hcount := List.count_true_add_count_false
      ((List.range a.width).map a.writeMask.testBit)
    rw [List.length_map, List.length_range] at hcount
    simp only [SplitStats.countStore]
    omega

theorem Laid.ne_of_narrow {body : Body} {s : Shape} (hl : f.Laid i news k)
    (hb : f.body? i = some (.access a)) (hw : a.width ≠ 1) (hc : k.Computes n body v s)
    (hnarrow : body.isWide = false) : n ≠ i := by
  rintro rfl
  obtain rfl := Option.some.inj (hc.body.symm.trans (hl.grows.body hb))
  simp [Body.isWide, hw] at hnarrow

theorem splitLoad_scalarizes (hf : f.Tidy) (hi : f.home? i = some b)
    (hbody : f.body? i = some (.access a)) (hk : a.kind = .loadInput) (hw : a.width ≠ 1)
    (hm : modes.input) {stats stats' : SplitStats}
    (hrun : (f.splitLoad i (f.dest? i) a).run stats = .ok (g, stats')) :
    Tallies a stats stats' ∧ ∃ ρ news, i ∉ news ∧
      Scalarizes modes f ρ (fun j => if j = i then news else [j]) g := by
  simp only [splitLoad, lift_bind_eq_ok] at hrun
  obtain ⟨v, hv, x, hx, offset, hoff, ⟨w, k⟩, hbuild, l, hl, g', hg, hend⟩ := hrun
  cases hend
  have hd := Checked.orElse_eq_ok.mp hv
  obtain ⟨rest, hsrcs⟩ : ∃ rest, a.srcs = offset :: rest := by
    have h0 : a.srcs[0]? = some offset := Checked.inBounds_eq_ok.mp hoff
    cases hs : a.srcs with
    | nil => simp [hs] at h0
    | cons y rest => exact ⟨rest, by simpa [hs] using h0⟩
  obtain ⟨_, hlaid, qs, n, op, bits', rfl, hfresh, hloads, hop, hc⟩ :=
    lays_of_build (loadChannels_lays x.shape.bits hw) hf.reached hi hbuild
  have hne : v ≠ w := by
    rintro rfl
    simp [hasValue, value_eq_ok.mp hx] at hfresh
  obtain ⟨y, hy, -⟩ := home?_eq_some.mp hi
  obtain ⟨l', g', hl', hg', -, hr⟩ := replaced_of_replaceUses ⟨hlaid.reached, hlaid.small hf.small⟩
    (hlaid.grows.home hi) ((hlaid.grown.destOld hy).trans hd) hne (hasValue_of_shape hc.shape)
  obtain rfl : l' = l := Except.ok.inj (hl'.symm.trans hl)
  obtain rfl : g' = g := Except.ok.inj (hg'.symm.trans hg)
  refine ⟨tallies_countLoad hk hsrcs stats, _, _, hlaid.apart,
    scalarizes_of_replaced hlaid hr hi (fun z hz => ?_) (fun m body hb => ?_) ?_⟩
  · by_cases hzv : z = v
    · rw [hzv, hd]
    · simp [handOver, hzv] at hz
  · obtain ⟨body', hb'⟩ := known_of_replaceUses hl hb
    exact known_of_remove hg hb'
  · have hvec := hr.computes hc (hlaid.ne_of_narrow hbody hw hc rfl)
    have hw' : handOver v w v = w := if_pos rfl
    rw [Body.mapSrcs_of_fixed fun z hz => ?_, ← hw'] at hvec
    · exact .load hbody hk hsrcs hw hm hd (fun m hm => hlaid.body_new hm)
        (hloads.imp fun c q hq => hr.computes hq (hlaid.ne_of_narrow hbody hw hq rfl)) hop hvec
    · obtain ⟨q, hq, rfl⟩ : ∃ q ∈ qs, q.2 = z := by simpa [Body.srcs, Operand.channel] using hz
      obtain ⟨c, -, hcq⟩ := exists_of_forall₂ hloads hq
      refine if_neg fun hqv => hlaid.ne_of_narrow hbody hw hcq rfl ?_
      have hsource := hlaid.grown.source v i ((hf.linked.defined.iff i v).mp hd)
      exact Option.some.inj (hcq.source.symm.trans (hqv ▸ hsource))

theorem splitStore_scalarizes (hf : f.Tidy) (hi : f.home? i = some b)
    (hbody : f.body? i = some (.access a)) (hk : a.kind = .storeOutput) (hw : a.width ≠ 1)
    (hm : modes.output) (hd : f.dest? i = none) {stats stats' : SplitStats}
    (hrun : (f.splitStore i a).run stats = .ok (g, stats')) :
    Tallies a stats stats' ∧ ∃ ρ news, i ∉ news ∧
      Scalarizes modes f ρ (fun j => if j = i then news else [j]) g := by
  simp only [splitStore, lift_bind_eq_ok] at hrun
  obtain ⟨offset, hoff, stored, hstored, ⟨written, k⟩, hbuild, g', hg, hend⟩ := hrun
  cases hend
  obtain ⟨rest, hsrcs⟩ : ∃ rest, a.srcs = stored :: offset :: rest := by
    have h0 : a.srcs[0]? = some stored := Checked.inBounds_eq_ok.mp hstored
    have h1 : a.srcs[1]? = some offset := Checked.inBounds_eq_ok.mp hoff
    rcases hs : a.srcs with _ | ⟨y, _ | ⟨z, rest⟩⟩
    · simp [hs] at h0
    · simp [hs] at h1
    · exact ⟨rest, by simpa [hs] using And.intro h0 h1⟩
  obtain ⟨news, hlaid, rfl, hpieces, hfollows⟩ :=
    lays_of_build (storeChannels_lays stored) hf.reached hi hbuild
  have hr := replaced_of_remove hlaid.reached.linked.placed hg
  have hchannels : a.channels = ((List.range a.width).filter (a.writeMask.testBit ·)).map fun c =>
      .store a.base (a.component + c) offset (stored, c) := by
    simp only [Access.channels, hk, hsrcs]
  rw [← hchannels] at hfollows
  have hdrop := dropped_of_remove hg
  have hsame : g.channelsAt = k.channelsAt := by
    funext m
    rw [channelsAt, channelsAt, hdrop.body]
  refine ⟨tallies_countStore hk hsrcs stats, _, _, hlaid.apart, scalarizes_of_replaced hlaid hr hi
    (fun z hz => absurd rfl hz) (fun m body hb => known_of_remove hg hb) ?_⟩
  have hid : (fun x : ChannelAccess => x.rename fun v => v) = id :=
    funext ChannelAccess.rename_id
  refine .store hbody hk hsrcs hw hm hd (fun m hm => ⟨hlaid.body_new hm, ?_, ?_⟩) ?_
  · obtain ⟨-, c, hc⟩ := hlaid.grown.fresh m hm
    have hmi : m ≠ i := by
      rintro rfl
      exact hlaid.apart hm
    exact ⟨c, by rw [hdrop.home, if_neg hmi, hc]⟩
  · simpa only [StorePiece, hdrop.body] using hpieces m hm
  · rw [hid, List.map_id, hsame]
    exact hfollows.imp fun x y hxy => hxy.dropped (hlaid.grows.body hbody) hdrop

end Function

end ShaderSSA
