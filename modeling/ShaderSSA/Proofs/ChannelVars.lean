import ShaderSSA.Proofs.Walking

/-! Channel variables and the chains to them. A channel variable is declared like its source, but
for the channel, and a chain that is repeated on top of it reaches the same offset. -/

namespace ShaderSSA

namespace VarType

theorem channelType?_array {t t' : VarType} {n : Nat}
    (h : (VarType.array t n).channelType? = some t') :
    ∃ u, t.channelType? = some u ∧ t' = .array u n := by
  obtain ⟨u, hu, rfl⟩ := Option.map_eq_some_iff.mp h
  exact ⟨u, hu, rfl⟩

theorem slotCount?_channelType : ∀ {t t' : VarType}, t.channelType? = some t' →
    t'.slotCount? = t.slotCount?
  | .vector .., _, h => by
    cases h
    rfl
  | .array t n, _, h => by
    obtain ⟨u, hu, rfl⟩ := channelType?_array h
    simp only [slotCount?, slotCount?_channelType hu]
  | .matrix .., _, h => by cases h
  | .record .., _, h => by cases h

theorem exists_channelType : ∀ {t : VarType}, t.withoutArray.isMatrix = false →
    t.withoutArray.isRecord = false → ∃ t', t.channelType? = some t'
  | .vector base b _, _, _ => ⟨.vector base b 1, rfl⟩
  | .array t n, hm, hr => by
    obtain ⟨u, hu⟩ := exists_channelType (t := t) hm hr
    exact ⟨.array u n, by simp [channelType?, hu]⟩
  | .matrix .., hm, _ => by cases hm
  | .record .., _, hr => by cases hr

end VarType

theorem Variable.exists_channelType {x : Variable} {stage : Stage} (h : x.canSplit stage) :
    ∃ t, x.type.channelType? = some t := by
  simp only [Variable.canSplit, Bool.and_eq_true, Bool.not_eq_true'] at h
  exact VarType.exists_channelType h.1.2 h.2

/-- The declaration of the variable for one channel. -/
def Variable.onChannel (x : Variable) (channel : Nat) (type : VarType) : Variable :=
  { x with channel, type }

namespace Splitting

/-- Each entry names a variable that is declared like its source, but for the channel. -/
def Sane (s : Splitting) : Prop :=
  ∀ c ∈ s.channels, ∃ x t, s.vars.get? c.source = some x ∧ x.type.channelType? = some t ∧
    s.vars.get? c.var = some (x.onChannel c.channel t)

/-- Variables have been added and nothing has been counted. -/
structure Onward (s s' : Splitting) : Prop where
  sane : s'.Sane
  vars : s.vars.Extends s'.vars
  stats : s'.stats = s.stats

variable {s s' s'' : Splitting}

theorem Onward.refl (h : s.Sane) : s.Onward s := ⟨h, .refl s.vars, rfl⟩

theorem Onward.trans (h : s.Onward s') (h' : s'.Onward s'') : s.Onward s'' :=
  ⟨h'.sane, h.vars.trans h'.vars, h'.stats.trans h.stats⟩

end Splitting

theorem Variables.extends_add (vars : Variables) (x : Variable) :
    vars.Extends (vars.add x).2 ∧ (vars.add x).2.get? (vars.add x).1 = some x := by
  refine ⟨fun i y hy => ?_, ?_⟩
  · have hne : i ≠ (vars.arena.alloc x).1 := by
      rintro rfl
      simp [Variables.get?, Arena.alloc, Arena.get?_size] at hy
    have := Arena.get?_alloc vars.arena x i
    rw [if_neg hne] at this
    exact this.trans hy
  · have := Arena.get?_alloc vars.arena x (vars.arena.alloc x).1
    rwa [if_pos rfl] at this

/-- A trait that goes with the variables and outlives the creation of others. -/
structure VarTrait where
  given : Variables → Trait
  mono : ∀ {vars vars' : Variables}, vars.Extends vars' → ∀ g body dest,
    (given vars).holds g body dest → (given vars').holds g body dest

namespace ChannelBuild

variable {α : Type} {P : VarTrait} {source : VarId} {channel : Nat} {x : Variable} {t : VarType}
  {s : Splitting} {f : Function} {i : InstrId}

/-- Channel variables are created and instructions are emitted in front of `i`, with the trait that
goes with the variables in the end. -/
def yielding (P : VarTrait) (i : InstrId) : Conduct view where
  ready t := t.1.Sane ∧ t.2.func.Tidy ∧ t.2.func.Stands t.2.cursor i
  rel p news q := p.1.Onward q.1 ∧ p.2.Emits (P.given q.1.vars) i news q.2
  refl h := ⟨.refl h.1, .refl h.2.1 i⟩
  trans hs _ h h' :=
    ⟨h.1.trans h'.1, (h.2.mono (P.mono h'.1.vars)).trans h'.2 hs.2.1.linked⟩

/-- A build with channel variables that succeeds in front of `i`. -/
abbrev Yields (P : VarTrait) (m : ChannelBuild α) (s : Splitting) (f : Function) (i : InstrId)
    (Q : α → Splitting → List InstrId → Function → Prop) : Prop :=
  Obeys False (yielding P i) m (s, f) fun a news p => Q a p.1 news p.2

theorem Yields.lift {m : Build α} {Q : α → List InstrId → Function → Prop}
    (h : m.Yields (P.given s.vars) f i Q) :
    (liftM m : ChannelBuild α).Yields P s f i fun a s' news g => s' = s ∧ Q a news g :=
  Obeys.carried (fun _ hb => ⟨hb.2, fun _ _ hb' he => ⟨⟨hb.1, hb'⟩, .refl hb.1, he⟩⟩) h

theorem Yields.exists {m : ChannelBuild α} {Q : α → Splitting → List InstrId → Function → Prop}
    {c : Cursor} (h : m.Yields P s f i Q) (hs : s.Sane) (hf : f.Tidy) (hst : f.Stands c i) :
    ∃ a s' g c' news, m.run (s, ⟨f, c⟩) = .ok (a, s', ⟨g, c'⟩) ∧ s.Onward s' ∧
      f.Emits (P.given s'.vars) i news g ∧ Q a s' news g := by
  obtain ⟨⟨a, s', g, c'⟩, hrun, -, news, ⟨ho, he⟩, hq⟩ := (h (s, ⟨f, c⟩) rfl ⟨hs, hf, hst⟩).exists
  exact ⟨a, s', g, c', news, hrun, ho, he, hq⟩

/-- Asking for a channel variable succeeds, whether it is there or has to be made. -/
theorem channelVar_yields (hx : s.vars.get? source = some x) (ht : x.type.channelType? = some t)
    (hc : channel < 4) :
    (channelVar source channel).Yields P s f i fun id s' news g => news = [] ∧ g = f ∧
      s'.vars.get? id = some (x.onChannel channel t) := by
  have hget : s.vars.get source = .ok x := by simp [Variables.get, hx, Checked.inBounds]
  have hreq : Checked.require (decide (channel < maxWidth)) (.channelPastSlot channel x.name) =
      .ok () := by simp [Checked.require, maxWidth, hc]
  refine .splitting (.ok hget (.ok hreq ?_))
  split
  · rename_i c hfind
    obtain ⟨hc, hmem⟩ : (c.source = source ∧ c.channel = channel) ∧ c ∈ s.channels :=
      ⟨by simpa using List.find?_some hfind, List.mem_of_find?_eq_some hfind⟩
    refine .of_ready ?_
    rintro ⟨_, b⟩ ⟨⟩ ⟨hs, -⟩
    obtain ⟨y, u, hy, hu, hvar⟩ := hs c hmem
    obtain rfl : x = y := by simpa [hc.1, hx] using hy
    obtain rfl : t = u := by simpa [ht] using hu
    exact .pure ⟨rfl, rfl, by rw [hvar, hc.2]⟩
  · refine .ok (Checked.orElse_eq_ok.mpr ht) ?_
    obtain ⟨hext, hnew⟩ := s.vars.extends_add (x.onChannel channel t)
    rintro ⟨s, b⟩ ⟨⟩ ⟨hs, hb⟩
    have hsane : Splitting.Sane { s with
        vars := (s.vars.add (x.onChannel channel t)).2
        channels := s.channels ++
          [⟨source, channel, (s.vars.add (x.onChannel channel t)).1⟩] } := by
      intro c hmem
      rcases List.mem_append.mp hmem with hmem | hmem
      · obtain ⟨y, u, hy, hu, hvar⟩ := hs c hmem
        exact ⟨y, u, hext _ y hy, hu, hext _ _ hvar⟩
      · obtain rfl : c = _ := List.mem_singleton.mp hmem
        exact ⟨x, t, hext _ x hx, ht, hnew⟩
    exact ⟨⟨hsane, hb⟩, [], ⟨⟨hsane, hext, rfl⟩, .refl hb.1 i⟩, rfl, rfl, hnew⟩

end ChannelBuild

end ShaderSSA
