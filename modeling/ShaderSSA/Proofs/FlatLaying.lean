import ShaderSSA.Proofs.FlatSplit
import ShaderSSA.Proofs.Laying

/-! What is laid for a flat access: a load for each of its channels and the vector of them, or a
store for each channel that the mask has, whose lane is picked by moves. -/

namespace ShaderSSA

/-- What happens to one channel of a slot. -/
inductive ChannelAccess
  | load (base component : Nat) (offset : ValueId)
  /-- A lane of a value is stored. -/
  | store (base component : Nat) (offset : ValueId) (lane : ValueId × Nat)
  deriving DecidableEq

namespace ChannelAccess

def rename (ρ : ValueId → ValueId) : ChannelAccess → ChannelAccess
  | load base component offset => load base component (ρ offset)
  | store base component offset lane => store base component (ρ offset) (ρ lane.1, lane.2)

/-- The same but for moves on the way to the lane that is stored. -/
inductive Follows (f g : Function) : ChannelAccess → ChannelAccess → Prop
  | load {base component : Nat} {offset : ValueId} :
      Follows f g (load base component offset) (load base component offset)
  | store {base component : Nat} {offset : ValueId} {lane lane' : ValueId × Nat} :
      f.Traces g lane' lane →
      Follows f g (store base component offset lane) (store base component offset lane')

theorem Follows.refl (f g : Function) (x : ChannelAccess) : x.Follows f g x := by
  cases x with
  | load => exact .load
  | store => exact .store .refl

theorem Follows.since {f g h : Function} {x y : ChannelAccess} (hxy : x.Follows g h y)
    (hg : ∀ n, g.body? n = none → f.body? n = none) : x.Follows f h y := by
  cases hxy with
  | load => exact .load
  | store ht => exact .store (ht.since hg)

theorem rename_rename (ρ ρ' : ValueId → ValueId) (x : ChannelAccess) :
    (x.rename ρ).rename ρ' = x.rename fun v => ρ' (ρ v) := by
  cases x <;> rfl

theorem rename_id (x : ChannelAccess) : x.rename (fun v => v) = x := by
  cases x <;> rfl

end ChannelAccess

/-- The channels of a flat access, those of a store as far as the mask has them. -/
def Access.channels (a : Access) : List ChannelAccess :=
  match a.kind, a.srcs with
  | .loadInput, offset :: _ =>
    (List.range a.width).map fun k => .load a.base (a.component + k) offset
  | .storeOutput, v :: offset :: _ =>
    ((List.range a.width).filter (a.writeMask.testBit ·)).map fun k =>
      .store a.base (a.component + k) offset (v, k)
  | _, _ => []

def Body.channels : Body → List ChannelAccess
  | access a => a.channels
  | _ => []

theorem Body.channels_mapSrcs (body : Body) (ρ : ValueId → ValueId) :
    (body.mapSrcs fun _ => ρ).channels = body.channels.map (·.rename ρ) := by
  cases body with
  | access a =>
    obtain ⟨kind, width, srcs, base, component, mask⟩ := a
    simp only [mapSrcs, channels, Access.channels]
    cases kind <;> rcases srcs with _ | ⟨v, _ | ⟨w, rest⟩⟩ <;>
      simp [ChannelAccess.rename, Function.comp_def]
  | deref d => rcases d with ⟨_ | _, _, _⟩ <;> rfl
  | _ => rfl

namespace Function

def channelsAt (f : Function) (i : InstrId) : List ChannelAccess :=
  (f.body? i).elim [] Body.channels

/-- The channels that a block accesses, in order. -/
def channels (f : Function) (b : BlockId) : List ChannelAccess :=
  (f.blockInstrs b).flatMap f.channelsAt

variable {f g h : Function} {i j n : InstrId} {b : BlockId} {a : Access} {offset v w : ValueId}
  {news : List InstrId} {modes : Mode}

theorem channelsAt_eq {body : Body} (h : f.body? i = some body) :
    f.channelsAt i = body.channels := by
  simp [channelsAt, h]

theorem loadChannels_lays (bits : Nat) (hw : a.width ≠ 1) :
    (loadChannels a bits offset).Lays f i fun w news g =>
      ∃ (qs : List (InstrId × ValueId)) (n : InstrId) (op : AluOp) (bits' : Nat),
        news = qs.map (·.1) ++ [n] ∧ f.hasValue w = false ∧
        List.Forall₂ (fun k q => g.Computes q.1 (channelLoad a offset k) q.2 ⟨1, bits⟩)
          (List.range a.width) qs ∧
        AluOp.construct? a.width = some op ∧
        g.Computes n (.alu ⟨op, qs.map fun q => .channel q.2 0⟩) w ⟨a.width, bits'⟩ := by
  refine (Obeys.mapM (I := fun _ => True)
    (T := fun k x ns g => ∃ m, ns = [m] ∧ g.Computes m (channelLoad a offset k) x ⟨1, bits⟩)
    (fun _ _ _ _ _ => trivial) ?_ ?_ trivial).bind ?_
  · rintro k x ns g _ h hg ⟨m, hm, hc⟩
    exact ⟨m, hm, hc.grows hg.grows⟩
  · intro k _ g _
    refine .checked fun c hc => ?_
    obtain ⟨-, rfl⟩ := Checked.fit_eq_ok.mp hc
    refine (Build.insertValue_lays _ (by simp [Body.srcs])).imp ?_
    rintro x ns h - ⟨m, hm, -, hc⟩
    exact ⟨m, hm, hc⟩
  · rintro _ _ g hg ⟨ps, rfl, rfl, hall⟩
    obtain ⟨qs, hvalues, hinstrs, hloads⟩ : ∃ qs : List (InstrId × ValueId),
        ps.map (·.1) = qs.map (·.2) ∧ ps.flatMap (·.2) = qs.map (·.1) ∧
        List.Forall₂ (fun k q => g.Computes q.1 (channelLoad a offset k) q.2 ⟨1, bits⟩)
          (List.range a.width) qs := by
      clear hg
      generalize List.range a.width = l at hall
      induction hall with
      | nil => exact ⟨[], rfl, rfl, .nil⟩
      | @cons k p ks ps hp _ ih =>
        obtain ⟨m, hm, hc⟩ := hp
        obtain ⟨qs, hvalues, hinstrs, hloads⟩ := ih
        exact ⟨(m, p.1) :: qs, by simp [hvalues], by simp [hm, hinstrs], .cons hc hloads⟩
    have hlen : (ps.map (·.1)).length = a.width := by
      rw [hvalues, List.length_map, ← hloads.length_eq, List.length_range]
    refine (Build.vec_lays (by rwa [hlen])).imp ?_
    rintro w _ h hh ⟨n, op, bits', rfl, hw, hop, hc⟩
    rw [hlen] at hop hc
    rw [hvalues, List.map_map] at hc
    refine ⟨qs, n, op, _, by rw [hinstrs], ?_, ?_, hop, hc⟩
    · exact hg.grown.absent hw
    · exact hloads.imp fun k q hq => hq.grows hh.grows

theorem flatMap_channelsAt_loads {l : List Nat} {qs : List (InstrId × ValueId)} {s : Shape}
    (h : List.Forall₂ (fun k q => g.Computes q.1 (channelLoad a offset k) q.2 s) l qs) :
    (qs.map (·.1)).flatMap g.channelsAt = l.map fun k => .load a.base (a.component + k) offset := by
  induction h with
  | nil => rfl
  | cons hq _ ih =>
    rw [List.map_cons, List.flatMap_cons, channelsAt_eq hq.body, ih]
    rfl

/-- An instruction that a store is split into. -/
def StorePiece (a : Access) (offset : ValueId) (g : Function) (n : InstrId) : Prop :=
  (∃ o, g.body? n = some (.alu ⟨.mov, [o]⟩)) ∨
    ∃ lane k, g.body? n = some (channelStore a lane offset k)

theorem StorePiece.grows (hp : StorePiece a offset g n) (hg : g.Grows i h) :
    StorePiece a offset h n := by
  rcases hp with ⟨o, ho⟩ | ⟨lane, k, hb⟩
  · exact .inl ⟨o, hg.body ho⟩
  · exact .inr ⟨lane, k, hg.body hb⟩

theorem channels_channelStore (lane : ValueId) (k : Nat) :
    (channelStore a lane offset k).channels =
      [.store a.base (a.component + k) offset (lane, 0)] := by
  simp [channelStore, Body.channels, Access.channels, List.range_succ]

theorem channelsAt_mov {o : Operand} (hb : f.body? n = some (.alu ⟨.mov, [o]⟩)) :
    f.channelsAt n = [] :=
  channelsAt_eq hb

theorem flatMap_channelsAt_grows (hg : g.Grows i h)
    (hn : ∀ n ∈ news, ∃ body, g.body? n = some body) :
    news.flatMap h.channelsAt = news.flatMap g.channelsAt := by
  induction news with
  | nil => rfl
  | cons n news ih =>
    obtain ⟨body, hb⟩ := hn n List.mem_cons_self
    rw [List.flatMap_cons, List.flatMap_cons, ih fun m hm => hn m (List.mem_cons_of_mem n hm),
      channelsAt_eq hb, channelsAt_eq (hg.body hb)]

theorem flatMap_channelsAt_moves (hm : Build.OnlyMoves g news) (hg : g.Grows i h) :
    news.flatMap h.channelsAt = [] := by
  refine List.flatMap_eq_nil_iff.mpr fun m hmem => ?_
  obtain ⟨o, ho⟩ := hm m hmem
  exact channelsAt_mov (hg.body ho)

theorem StorePiece.narrow (hp : StorePiece a offset g n) :
    ∃ body, g.body? n = some body ∧ body.isWide = false := by
  rcases hp with ⟨o, ho⟩ | ⟨lane, k, hb⟩
  · exact ⟨_, ho, rfl⟩
  · exact ⟨_, hb, rfl⟩

/-- What is laid for channel `k` of a store: the store of its lane, if the mask has it. -/
structure LaidStore (a : Access) (offset : ValueId) (f : Function) (stored : ValueId) (k : Nat)
    (wrote : Bool) (news : List InstrId) (g : Function) : Prop where
  wrote : wrote = a.writeMask.testBit k
  pieces : ∀ n ∈ news, StorePiece a offset g n
  channels : ∃ lane, f.Traces g lane (stored, k) ∧ news.flatMap g.channelsAt =
    if a.writeMask.testBit k then [.store a.base (a.component + k) offset lane] else []

theorem LaidStore.grows {stored : ValueId} {k : Nat} {wrote : Bool}
    (hl : LaidStore a offset f stored k wrote news g) (hg : g.Grows i h) :
    LaidStore a offset f stored k wrote news h := by
  obtain ⟨lane, hlane, hchannels⟩ := hl.channels
  refine ⟨hl.wrote, fun n hn => (hl.pieces n hn).grows hg, lane, hlane.grows hg, ?_⟩
  rw [flatMap_channelsAt_grows hg fun n hn => ?_, hchannels]
  obtain ⟨body, hb, -⟩ := (hl.pieces n hn).narrow
  exact ⟨body, hb⟩

theorem storeChannel_lays (v : ValueId) (k : Nat) :
    (storeChannel a v offset k).Lays f i (LaidStore a offset f v k) := by
  refine .checked fun bit hbit => ?_
  obtain ⟨-, rfl⟩ := Checked.maskBit_eq_ok.mp hbit
  cases hmask : a.writeMask.testBit k with
  | false => exact .pure ⟨hmask.symm, by simp, (v, k), .refl, by simp [hmask]⟩
  | true =>
    refine (Build.channel_lays v k).bind fun lane moves g hg ⟨hmoves, htr, bits, hlane⟩ => ?_
    refine .checked fun c hc => ?_
    obtain ⟨-, rfl⟩ := Checked.fit_eq_ok.mp hc
    refine .bind (Q := fun n ns h => ns = [n] ∧ h.body? n = some (channelStore a lane offset k))
      (.shape fun s hs => ?_) ?_
    · obtain rfl : s = ⟨1, bits⟩ := by simpa [hlane] using hs.symm
      refine (Build.insert_lays none (by simp [Body.srcs])).imp ?_
      rintro n ns h - ⟨rfl, hj⟩
      exact ⟨rfl, hj.body⟩
    · rintro n _ h hh ⟨rfl, hb⟩
      refine .pure ⟨hmask.symm, fun m hm => ?_, (lane, 0), htr.grows hh.grows, ?_⟩
      · rw [List.append_nil, List.mem_append, List.mem_singleton] at hm
        rcases hm with hm | rfl
        · obtain ⟨o, ho⟩ := hmoves m hm
          exact .inl ⟨o, hh.grows.body ho⟩
        · exact .inr ⟨lane, k, hb⟩
      · rw [List.append_nil, List.flatMap_append, flatMap_channelsAt_moves hmoves hh.grows]
        simp [hmask, channelsAt_eq hb, channels_channelStore]

theorem follows_of_laidStore {stored : ValueId} {ks : List Nat} {ps : List (Bool × List InstrId)}
    (hall : List.Forall₂ (fun k p => LaidStore a offset f stored k p.1 p.2 g) ks ps) :
    ps.map (·.1) = ks.map a.writeMask.testBit ∧
      List.Forall₂ (ChannelAccess.Follows f g) ((ks.filter (a.writeMask.testBit ·)).map fun k =>
        .store a.base (a.component + k) offset (stored, k))
        ((ps.flatMap (·.2)).flatMap g.channelsAt) := by
  induction hall with
  | nil => exact ⟨rfl, .nil⟩
  | @cons k p ks ps hp _ ih =>
    obtain ⟨lane, hlane, hchannels⟩ := hp.channels
    refine ⟨by rw [List.map_cons, List.map_cons, ih.1, hp.wrote], ?_⟩
    rw [List.flatMap_cons, List.flatMap_append, hchannels]
    cases hmask : a.writeMask.testBit k with
    | false => simpa [hmask] using ih.2
    | true => simpa [hmask] using List.Forall₂.cons (.store hlane) ih.2

theorem storeChannels_lays (stored : ValueId) :
    (storeChannels a stored offset).Lays f i fun written news g =>
      written = (List.range a.width).map a.writeMask.testBit ∧
      (∀ n ∈ news, StorePiece a offset g n) ∧
      List.Forall₂ (ChannelAccess.Follows f g)
        (((List.range a.width).filter (a.writeMask.testBit ·)).map fun k =>
          .store a.base (a.component + k) offset (stored, k)) (news.flatMap g.channelsAt) := by
  refine (Build.materialize_lays stored a.width).bind fun v moves g hg ⟨hmoves, htr⟩ => ?_
  refine (Obeys.mapM (E := Build.laying i) (I := g.Grows i) (T := LaidStore a offset f stored)
    (fun _ _ _ hh hg => hg.trans hh.grows) (fun _ _ _ _ _ _ hh hl => hl.grows hh.grows)
    (fun k hk h hh => ?_) (.refl g i)).imp ?_
  · refine (storeChannel_lays v k).imp fun wrote ns h' hh' hl => ?_
    obtain ⟨lane, hlane, hchannels⟩ := hl.channels
    have hv : f.Traces h' (v, k) (stored, k) :=
      ((htr k (List.mem_range.mp hk)).grows hh).grows hh'.grows
    exact ⟨hl.wrote, hl.pieces, lane,
      (hlane.since fun _ => (hg.grows.trans hh).unknown).trans hv, hchannels⟩
  · rintro _ _ h hh ⟨ps, rfl, rfl, hall⟩
    obtain ⟨hwritten, hfollows⟩ := follows_of_laidStore hall
    refine ⟨hwritten, fun n hn => ?_, ?_⟩
    · rcases List.mem_append.mp hn with hn | hn
      · obtain ⟨o, ho⟩ := hmoves n hn
        exact .inl ⟨o, hh.grows.body ho⟩
      · obtain ⟨p, hp, hn⟩ := List.mem_flatMap.mp hn
        obtain ⟨k, -, hl⟩ := exists_of_forall₂ hall hp
        exact hl.pieces n hn
    · rwa [List.flatMap_append, flatMap_channelsAt_moves hmoves hh.grows, List.nil_append]

end Function

end ShaderSSA
