import ShaderSSA.Proofs.Exhaustion

/-! The variables that a split makes. Each stands for one channel of a variable of the start and is
declared like it but for the channel, no channel has two, and they follow the variables of the
start in the order in which they are made. -/

namespace ShaderSSA

namespace Splitting

variable {vars : Variables} {t t' : Splitting} {root : VarId} {x : Variable} {v : VarId}
  {May : ValueId → Prop} {Emits : Prop} {p q : Splitting × Function}

/-- What the table of channels says about the variables, seen from those of the start. -/
structure Tabled (vars : Variables) (t : Splitting) : Prop where
  declared : t.vars.declared = vars.declared ++ t.channels.map (·.var)
  kept : vars.Extends t.vars
  entry : ∀ c ∈ t.channels, c.channel < 4 ∧ vars.get? c.var = none ∧
    ∃ x type, vars.get? c.source = some x ∧ x.type.channelType? = some type ∧
      t.vars.get? c.var = some (x.onChannel c.channel type)
  keys : (t.channels.map fun c => (c.source, c.channel)).Nodup
  ids : (t.channels.map (·.var)).Nodup

theorem Tabled.start (vars : Variables) (stats : SplitStats) : Tabled vars ⟨vars, [], stats⟩ :=
  ⟨by simp, .refl _, by simp, by simp, by simp⟩

theorem Tabled.creates (h : t.Tabled vars) (hx : vars.get? root = some x)
    (hc : t.Creates root t') : t'.Tabled vars := by
  cases hc with
  | @mk y channel type hy hlt htype hnew =>
    obtain rfl : x = y := by simpa [h.kept root x hx] using hy
    obtain ⟨hext, hget⟩ := t.vars.extends_add (x.onChannel channel type)
    have hfresh : t.vars.get? (t.vars.add (x.onChannel channel type)).1 = none := by
      simp [Variables.get?, Variables.add, Arena.alloc, Arena.get?_size]
    refine ⟨?_, h.kept.trans hext, ?_, ?_, ?_⟩
    · simp [Variables.add, h.declared]
    · intro c hc
      rcases List.mem_append.mp hc with hc | hc
      · obtain ⟨hlt, hnone, y, type, hy, htype, hvar⟩ := h.entry c hc
        exact ⟨hlt, hnone, y, type, hy, htype, hext _ _ hvar⟩
      · obtain rfl := List.mem_singleton.mp hc
        refine ⟨hlt, ?_, x, type, hx, htype, hget⟩
        by_contra hsome
        obtain ⟨z, hz⟩ := Option.ne_none_iff_exists'.mp hsome
        simp [h.kept _ z hz] at hfresh
    · rw [List.map_append, List.nodup_append]
      refine ⟨h.keys, by simp, ?_⟩
      rintro k hk _ hk' rfl
      obtain ⟨c, hc, rfl⟩ := List.mem_map.mp hk
      rw [List.map_singleton, List.mem_singleton, Prod.mk.injEq] at hk'
      exact hnew c hc hk'
    · rw [List.map_append, List.nodup_append]
      refine ⟨h.ids, by simp, ?_⟩
      rintro v hv _ hv' rfl
      obtain ⟨c, hc, rfl⟩ := List.mem_map.mp hv
      rw [List.map_singleton, List.mem_singleton] at hv'
      obtain ⟨-, -, y, type, -, -, hvar⟩ := h.entry c hc
      rw [hv', hfresh] at hvar
      cases hvar

theorem Tabled.moves (h : p.1.Tabled vars) (hx : vars.get? root = some x)
    (hm : Relation.ReflTransGen (Moves root May Emits) p q) : q.1.Tabled vars := by
  induction hm with
  | refl => exact h
  | tail _ hstep ih =>
    cases hstep with
    | create _ hc => exact ih.creates hx hc
    | insert _ => exact ih

theorem Tabled.since (h : t.Tabled vars) : t.Since vars where
  kept := h.kept
  declared v hv := by rw [h.declared]; exact List.mem_append_left _ hv
  fresh c hc := by
    refine ⟨?_, (h.entry c hc).2.1⟩
    rw [h.declared]
    exact List.mem_append_right _ (List.mem_map_of_mem hc)

theorem Tabled.length_le (h : t.Tabled vars) (v : VarId) :
    (t.channels.filter (·.source = v)).length ≤ 4 := by
  have hnd : ((t.channels.filter (·.source = v)).map (·.channel)).Nodup := by
    refine List.pairwise_map.mpr (List.Pairwise.imp_of_mem (fun {c d} hc hd hne he => hne ?_)
      (List.pairwise_map.mp (h.keys.sublist (List.filter_sublist.map _))))
    rw [List.mem_filter, decide_eq_true_eq] at hc hd
    rw [hc.2, hd.2, he]
  have hsub : (t.channels.filter (·.source = v)).map (·.channel) ⊆ List.range 4 := by
    intro n hn
    obtain ⟨c, hc, rfl⟩ := List.mem_map.mp hn
    exact List.mem_range.mpr (h.entry c (List.mem_of_mem_filter hc)).1
  simpa using (hnd.subperm hsub).length_le

end Splitting

theorem Function.TakesApart.tabled {f g : Function} {i : InstrId} {a : Access} {v : ValueId}
    {root : VarId} {x : Variable} {vars : Variables} {t t' : Splitting}
    (h : TakesApart t f i a v root t' g) (ht : t.Tabled vars) (hx : vars.get? root = some x) :
    t'.Tabled vars := by
  cases h with
  | load _ _ hm =>
    have := ht.moves hx hm
    exact ⟨this.declared, this.kept, this.entry, this.keys, this.ids⟩
  | store _ hm =>
    have := ht.moves hx hm
    exact ⟨this.declared, this.kept, this.entry, this.keys, this.ids⟩

/-- The variables of a split shader: `split` are off the list, and `channels` follow those that are
left, each declared like the variable it belongs to but for its channel. -/
structure Variables.Channeled (vars vars' : Variables) (split : List VarId)
    (channels : List ChannelVar) : Prop where
  declared : vars'.declared = vars.declared.filter (· ∉ split) ++ channels.map (·.var)
  dropped : ∀ v ∈ split, v ∉ vars'.declared
  kept : vars.Extends vars'
  entry : ∀ c ∈ channels, c.source ∈ split ∧ c.channel ≤ 3 ∧ vars.get? c.var = none ∧
    ∃ x type, vars.get? c.source = some x ∧ x.type.channelType? = some type ∧
      vars'.get? c.var = some { x with channel := c.channel, type }
  keys : (channels.map fun c => (c.source, c.channel)).Nodup
  ids : (channels.map (·.var)).Nodup
  count : ∀ v ∈ split, 1 ≤ (channels.filter (·.source = v)).length ∧
    (channels.filter (·.source = v)).length ≤ 4

theorem nodup_eraseDups {α : Type} [DecidableEq α] : ∀ l : List α, l.eraseDups.Nodup
  | [] => by simp
  | a :: l => by
    rw [List.eraseDups_cons, List.nodup_cons]
    exact ⟨by simp, nodup_eraseDups _⟩
termination_by l => l.length
decreasing_by exact Nat.lt_succ_of_le (List.length_filter_le _ _)

theorem Splitting.Tabled.channeled {vars : Variables} {t : Splitting} (h : t.Tabled vars) :
    vars.Channeled (t.sources.foldl Variables.drop t.vars) t.sources t.channels := by
  have hget := Variables.get?_foldl_drop t.vars t.sources
  have hsource : ∀ c ∈ t.channels, c.source ∈ t.sources :=
    fun c hc => Splitting.mem_sources.mpr ⟨c, hc, rfl⟩
  -- A split variable was there at the start and a channel variable was not.
  have hapart : ∀ c ∈ t.channels, c.var ∉ t.sources := by
    intro c hc hmem
    obtain ⟨c', hc', hsame⟩ := Splitting.mem_sources.mp hmem
    obtain ⟨-, -, x, -, hx, -⟩ := h.entry c' hc'
    rw [hsame, (h.entry c hc).2.1] at hx
    cases hx
  refine ⟨?_, fun v hv hmem => ?_, fun v x hx => ?_, fun c hc => ?_, h.keys, h.ids, fun v hv => ?_⟩
  · rw [Variables.declared_foldl_drop, h.declared, List.filter_append]
    refine congrArg _ (List.filter_eq_self.mpr fun v hv => ?_)
    obtain ⟨c, hc, rfl⟩ := List.mem_map.mp hv
    exact decide_eq_true (hapart c hc)
  · exact (Variables.mem_declared_foldl_drop.mp hmem).2 hv
  · rw [hget, h.kept v x hx]
  · obtain ⟨hlt, hnone, x, type, hx, htype, hvar⟩ := h.entry c hc
    exact ⟨hsource c hc, Nat.le_of_lt_succ hlt, hnone, x, type, hx, htype, by rw [hget, hvar]; rfl⟩
  · obtain ⟨c, hc, hcv⟩ := Splitting.mem_sources.mp hv
    exact ⟨List.length_pos_of_mem (List.mem_filter.mpr ⟨hc, decide_eq_true hcv⟩), h.length_le v⟩

end ShaderSSA
