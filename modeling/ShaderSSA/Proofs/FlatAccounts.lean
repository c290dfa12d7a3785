import ShaderSSA.Proofs.FlatUnfolding

/-! What a split of flat accesses emits. In every block the same channels are accessed in the same
order, and the counters tell how many of them were emitted and how many a mask left out. -/

namespace ShaderSSA

theorem mapM_adds {σ α β : Type} {m : α → StateT σ Checked β} {t : σ → Nat} {c : α → Nat}
    {l : List α} (h : ∀ a ∈ l, ∀ s b s', (m a).run s = .ok (b, s') → t s' = t s + c a)
    {s s' : σ} {l' : List β} (hrun : (l.mapM m).run s = .ok (l', s')) :
    t s' = t s + (l.map c).sum := by
  induction l generalizing s l' with
  | nil =>
    cases hrun
    rfl
  | cons a l ih =>
    simp only [List.mapM_cons, StateT.run_bind, bind_eq_ok] at hrun
    obtain ⟨⟨b, s₁⟩, hb, ⟨bs, s₂⟩, hbs, heq⟩ := hrun
    cases heq
    rw [ih (fun x hx => h x (List.mem_cons_of_mem a hx)) hbs, h a List.mem_cons_self s b s₁ hb,
      List.map_cons, List.sum_cons, Nat.add_assoc]

namespace Function

variable {f g : Function} {i j n : InstrId} {b : BlockId} {a : Access} {T : Terms}
  {news : List InstrId} {modes : Mode} {ρ : ValueId → ValueId} {vars : Variables}
  {pieces : InstrId → List InstrId}

/-- The access that a split still has to take apart at an instruction. -/
def left? (modes : Mode) (f : Function) (i : InstrId) : Option Access :=
  ((f.body? i).bind Body.access?).filter fun a => a.width != 1 && splitsFlat modes a.kind

/-- The total of a number over the accesses that are to be split. -/
def leftTotal (modes : Mode) (m : Access → Nat) (f : Function) : Nat :=
  (f.liveInstrs.map fun i => (f.left? modes i).elim 0 m).sum

theorem left?_eq_some : f.left? modes i = some a ↔
    f.body? i = some (.access a) ∧ a.width ≠ 1 ∧ splitsFlat modes a.kind := by
  rw [left?, Option.filter_eq_some_iff]
  cases f.body? i with
  | none => simp
  | some body => cases body <;> simp [Body.access?]

theorem left?_narrow {body : Body} (hb : f.body? i = some body) (hw : body.isWide = false) :
    f.left? modes i = none := by
  by_contra hsome
  obtain ⟨a, ha⟩ := Option.ne_none_iff_exists'.mp hsome
  obtain ⟨hb', hwide, -⟩ := left?_eq_some.mp ha
  obtain rfl := Option.some.inj (hb.symm.trans hb')
  simp [Body.isWide, hwide] at hw

/-- A number that does not depend on what an access reads. -/
def Nominal (m : Access → Nat) : Prop :=
  ∀ a (ρ : ValueId → ValueId), m { a with srcs := a.srcs.mapIdx fun _ => ρ } = m a

theorem nominal_channels : Nominal fun a => a.channels.length := by
  intro a ρ
  have hchannels := congrArg List.length (Body.channels_mapSrcs (.access a) ρ)
  rwa [List.length_map] at hchannels

theorem left?_kept {m : Access → Nat} (hm : Nominal m) {body : Body} (hb : f.body? i = some body)
    (hbody : g.body? i = some (body.mapSrcs fun _ => ρ)) :
    (g.left? modes i).elim 0 m = (f.left? modes i).elim 0 m := by
  cases body with
  | access a =>
    simp only [left?, hb, hbody, Body.mapSrcs, Option.bind_some, Body.access?, Option.filter_some]
    split
    · exact hm a ρ
    · rfl
  | deref d =>
    obtain ⟨_ | _, _, _⟩ := d <;> simp [left?, hb, hbody, Body.mapSrcs, Body.access?]
  | _ => simp [left?, hb, hbody, Body.mapSrcs, Body.access?]

theorem Scalarizes.layout (h : Scalarizes modes f ρ pieces g) : g.layout = f.layout := by
  have hsize : ∀ n, n < g.blocks.size ↔ n < f.blocks.size := by
    intro n
    have hb : (g.blocks.get? ⟨n⟩).isSome = (f.blocks.get? ⟨n⟩).isSome := by
      simpa [terminator?] using congrArg Option.isSome (h.terminator ⟨n⟩)
    have hg := g.blocks.get?_isSome_iff ⟨n⟩
    rw [hb, f.blocks.get?_isSome_iff] at hg
    exact hg.symm
  have heq : g.blocks.size = f.blocks.size := by
    have hlt := hsize f.blocks.size
    have hgt := hsize g.blocks.size
    omega
  rw [Function.layout, Function.layout, Arena.ids, Arena.ids, heq]

theorem Scalarizes.leftTotal {m : Access → Nat} (hm : Nominal m)
    (h : Scalarizes modes f ρ (fun j => if j = i then news else [j]) g) (hf : f.Placed)
    (hi : f.home? i = some b) (ha : f.left? modes i = some a) (hnews : i ∉ news) :
    g.leftTotal modes m + m a = f.leftTotal modes m := by
  have hlive : g.liveInstrs = f.liveInstrs.flatMap fun j => if j = i then news else [j] := by
    rw [liveInstrs, h.layout, liveInstrs, List.flatMap_assoc]
    exact List.flatMap_congr fun d _ => h.blocks d
  have hnd := hf.nodup_liveInstrs
  obtain ⟨pre, post, hsplit⟩ := List.append_of_mem (hf.mem_liveInstrs.mpr ⟨b, hi⟩)
  have hkept : ∀ j ∈ pre ++ post,
      (g.left? modes j).elim 0 m = (f.left? modes j).elim 0 m := by
    intro j hj
    obtain ⟨d, hd⟩ := hf.mem_liveInstrs.mp
      (hsplit ▸ List.mem_append.mpr ((List.mem_append.mp hj).imp_right (List.mem_cons_of_mem i)))
    have hji : j ≠ i := by
      rintro rfl
      rw [hsplit, List.nodup_middle] at hnd
      exact (List.nodup_cons.mp hnd).1 hj
    have hu := h.each j d hd
    rw [if_neg hji] at hu
    obtain ⟨-, -, -, body, hb, hbody⟩ := hu.kept List.mem_cons_self
    exact left?_kept hm hb hbody
  have hnew : (news.map fun n => (g.left? modes n).elim 0 m).sum = 0 := by
    refine List.sum_eq_zero fun x hx => ?_
    obtain ⟨n, hn, rfl⟩ := List.mem_map.mp hx
    have hu := h.each i b hi
    rw [if_pos rfl] at hu
    obtain ⟨rfl, -⟩ | ⟨-, -, body, hbody, hnarrow⟩ := hu.piece hn
    · exact absurd hn hnews
    · rw [left?_narrow hbody hnarrow]
      rfl
  rw [hsplit] at hnd
  rw [Function.leftTotal, Function.leftTotal, hlive, hsplit, expand_split hnd]
  simp only [List.map_append, List.map_cons, List.sum_append, List.sum_cons, hnew, ha]
  rw [List.map_congr_left fun j hj => hkept j (List.mem_append_left post hj),
    List.map_congr_left fun j hj => hkept j (List.mem_append_right pre hj)]
  change _ = _ + (m a + _)
  omega

/-- What a split makes of a function while it counts. -/
structure FlatMade (modes : Mode) (stats : SplitStats) (f : Function) (stats' : SplitStats)
    (g : Function) : Prop where
  linked : f.Linked ∧ g.Linked
  scalarizes : ∃ ρ pieces, Scalarizes modes f ρ pieces g
  emitted : stats'.emitted + g.leftTotal modes (·.channels.length) =
    stats.emitted + f.leftTotal modes (·.channels.length)
  all : stats'.emitted + stats'.masked + g.leftTotal modes (·.width) =
    stats.emitted + stats.masked + f.leftTotal modes (·.width)

theorem FlatMade.refl (hf : f.Linked) (modes : Mode) (stats : SplitStats) :
    FlatMade modes stats f stats f :=
  ⟨⟨hf, hf⟩, ⟨_, _, .refl modes f⟩, rfl, rfl⟩

theorem FlatMade.trans {h : Function} {stats stats' stats'' : SplitStats}
    (hfg : FlatMade modes stats f stats' g) (hgh : FlatMade modes stats' g stats'' h) :
    FlatMade modes stats f stats'' h := by
  obtain ⟨ρ, pieces, hs⟩ := hfg.scalarizes
  obtain ⟨ρ', pieces', hs'⟩ := hgh.scalarizes
  exact ⟨⟨hfg.linked.1, hgh.linked.2⟩, ⟨_, _, hs.trans hs' hfg.linked.1 hfg.linked.2⟩,
    hgh.emitted.trans hfg.emitted, hgh.all.trans hfg.all⟩

theorem splitFlatInstr_made (hf : f.Sound T vars) (hT : T.flat) (hg : g.Linked)
    (hleft : f.FlatLeft modes b i) {stats stats' : SplitStats}
    (hrun : (splitFlatInstr modes f i).run stats = .ok (g, stats')) :
    FlatMade modes stats f stats' g := by
  obtain ⟨hi, a, hbody, hw, hs⟩ := hleft
  have hmade : Tallies a stats stats' ∧ ∃ ρ news, i ∉ news ∧
      Scalarizes modes f ρ (fun j => if j = i then news else [j]) g := by
    obtain ⟨x, hx, hxb⟩ := Option.map_eq_some_iff.mp hbody
    have hinstr : f.instr i = .ok x := instr_eq_ok.mpr hx
    have hdest : f.dest? i = x.dest := by simp [dest?, hx]
    simp only [splitFlatInstr, hinstr, lift_ok_bind, hxb, if_neg hw] at hrun
    cases hk : a.kind with
    | loadInput =>
      have hm : modes.input = true := by simpa [hk, splitsFlat] using hs
      simp only [hk, hm, if_true, ← hdest] at hrun
      exact splitLoad_scalarizes hf.tidy hi hbody hk hw hm hrun
    | storeOutput =>
      have hm : modes.output = true := by simpa [hk, splitsFlat] using hs
      simp only [hk, hm, if_true] at hrun
      exact splitStore_scalarizes hf.tidy hi hbody hk hw hm (hf.dest_store hT hi hbody hk) hrun
    | _ => simp [hk, splitsFlat] at hs
  obtain ⟨htally, ρ, news, hnews, hsc⟩ := hmade
  have ha := left?_eq_some.mpr ⟨hbody, hw, hs⟩
  have hchannels := hsc.leftTotal nominal_channels hf.tidy.linked.placed hi ha hnews
  have hwidth := hsc.leftTotal (m := (·.width)) (fun _ _ => rfl) hf.tidy.linked.placed hi ha hnews
  have hemitted := htally.emitted
  have hall := htally.all
  exact ⟨⟨hf.tidy.linked, hg⟩, ⟨ρ, _, hsc⟩, by omega, by omega⟩

theorem leftTotal_of_done (hf : f.Placed) (hdone : ∀ b i, ¬ f.FlatLeft modes b i)
    (m : Access → Nat) : f.leftTotal modes m = 0 := by
  refine List.sum_eq_zero fun x hx => ?_
  obtain ⟨i, hi, rfl⟩ := List.mem_map.mp hx
  obtain ⟨b, hb⟩ := hf.mem_liveInstrs.mp hi
  cases ha : f.left? modes i with
  | none => rfl
  | some a => exact absurd ⟨hb, a, left?_eq_some.mp ha⟩ (hdone b i)

/-- What a split leaves of a function: each block accesses the channels it accessed, in the same
order, and one channel at a time. -/
structure FlatSame (modes : Mode) (f g : Function) : Prop where
  blocks : ∃ ρ pieces, Scalarizes modes f ρ pieces g ∧ ∀ b,
    List.Forall₂ (ChannelAccess.Follows f g) ((f.channels b).map (·.rename ρ)) (g.channels b)
  done : ∀ b i, ¬ g.FlatLeft modes b i

theorem splitFlat_made (hf : f.Sound T vars) (hT : T.flat) (modes : Mode) (stats : SplitStats) :
    ∃ g stats', (f.splitFlat modes).run stats = .ok (g, stats') ∧ FlatSame modes f g ∧
      stats'.emitted = stats.emitted + f.leftTotal modes (·.channels.length) ∧
      stats'.emitted + stats'.masked =
        stats.emitted + stats.masked + f.leftTotal modes (·.width) := by
  have hwalks := flatWalks (R := FlatMade modes) vars hT
    (fun stats f hf => .refl hf.tidy.linked modes stats)
    (fun _ _ _ _ _ _ hfg hgh => hfg.trans hgh)
    (fun _ _ _ _ _ _ hf hleft hrun hstep _ =>
      splitFlatInstr_made hf hT hstep.sound.tidy.linked hleft hrun)
  obtain ⟨g, stats', hrun, hg, hmade, hdone⟩ := hwalks.layout (s := stats) hf
  obtain ⟨ρ, pieces, hs⟩ := hmade.scalarizes
  have hemitted := hmade.emitted
  have hall := hmade.all
  rw [leftTotal_of_done hg.tidy.linked.placed hdone] at hemitted hall
  exact ⟨g, stats', hrun,
    ⟨⟨ρ, pieces, hs, fun b => hs.channels hf.tidy.linked.placed b⟩, hdone⟩, hemitted, hall⟩

end Function

/-- Splitting the flat inputs and outputs of a shader that passes the check accesses exactly the
channels that were accessed, in every block in the same order, and leaves all else where it is. The
counters add up to the channels of what was split. -/
theorem Shader.splitFlat_channels (s : Shader) (modes : Mode)
    (hreached : ∀ f ∈ s.functions, f.Reached) (hcheck : s.check = .ok (.ok ()))
    (hshaped : ∀ f ∈ s.functions, f.FlatShaped) :
    ∃ stats functions, s.splitFlat modes = .ok (stats, { s with functions }) ∧
      List.Forall₂ (Function.FlatSame modes) s.functions functions ∧
      stats.emitted =
        (s.functions.map (Function.leftTotal modes (·.channels.length))).sum ∧
      stats.emitted + stats.masked =
        (s.functions.map (Function.leftTotal modes (·.width))).sum := by
  have hverified := Shader.verified_of_check hreached hcheck
  have hmade : ∀ f ∈ s.functions, ∀ stats, ∃ g stats',
      (f.splitFlat modes).run stats = .ok (g, stats') ∧ Function.FlatSame modes f g ∧
        stats'.emitted = stats.emitted + f.leftTotal modes (·.channels.length) ∧
        stats'.emitted + stats'.masked =
          stats.emitted + stats.masked + f.leftTotal modes (·.width) := fun f hf stats =>
    Function.splitFlat_made ((hshaped f hf).sound False.elim (hreached f hf) (hverified f hf)
      s.vars) trivial modes stats
  obtain ⟨functions, stats, hrun, hall⟩ := mapM_run (fun f hf stats => by
    obtain ⟨g, stats', hg, hsame, -⟩ := hmade f hf stats
    exact ⟨g, stats', hg, hsame⟩) SplitStats.zero
  have hadds : ∀ f ∈ s.functions, ∀ stats g stats',
      (f.splitFlat modes).run stats = .ok (g, stats') →
        stats'.emitted = stats.emitted + f.leftTotal modes (·.channels.length) ∧
        stats'.emitted + stats'.masked =
          stats.emitted + stats.masked + f.leftTotal modes (·.width) := by
    intro f hf stats g stats' hg
    obtain ⟨_, _, hg', -, hcounts⟩ := hmade f hf stats
    cases hg.symm.trans hg'
    exact hcounts
  refine ⟨stats, functions, ?_, hall, ?_, ?_⟩
  · simp only [Shader.splitFlat, hrun, ok_bind]
    rfl
  · have hemitted := mapM_adds (t := SplitStats.emitted)
      (fun f hf stats g stats' hg => (hadds f hf stats g stats' hg).1) hrun
    rwa [SplitStats.zero, Nat.zero_add] at hemitted
  · have hboth := mapM_adds (t := fun stats : SplitStats => stats.emitted + stats.masked)
      (fun f hf stats g stats' hg => (hadds f hf stats g stats' hg).2) hrun
    rwa [SplitStats.zero, Nat.zero_add, Nat.zero_add] at hboth

/-- The loads of three and two channels are split, the second at an offset that the first loads,
and of the two channels of the store one is written. -/
theorem splitFlat_channels_channelShader :
    (Edit.outcome channelEdits).Reached ∧ (Edit.outcome channelEdits).FlatShaped ∧
      channelShader.check = .ok (.ok ()) ∧
      ∃ stats functions, channelShader.splitFlat .inOut =
          .ok (stats, { channelShader with functions }) ∧
        List.Forall₂ (Function.FlatSame .inOut) channelShader.functions functions ∧
        stats.emitted = 6 ∧ stats.emitted + stats.masked = 7 := by
  have hreached := Function.Reached.outcome channelEdits
  have hshaped : (Edit.outcome channelEdits).FlatShaped := by decide +kernel
  have hcheck : channelShader.check = .ok (.ok ()) := rfl
  obtain ⟨stats, functions, hrun, hsame, hemitted, hall⟩ := Shader.splitFlat_channels channelShader
    .inOut (by simpa [channelShader] using hreached) hcheck
    (by simpa [channelShader] using hshaped)
  have hchannels : (channelShader.functions.map
      (Function.leftTotal .inOut (·.channels.length))).sum = 6 := by decide +kernel
  have hwidths : (channelShader.functions.map (Function.leftTotal .inOut (·.width))).sum = 7 := by
    decide +kernel
  exact ⟨hreached, hshaped, hcheck, stats, functions, hrun, hsame, hemitted.trans hchannels,
    hall.trans hwidths⟩

end ShaderSSA
