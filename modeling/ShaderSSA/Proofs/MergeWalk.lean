import ShaderSSA.Proofs.Packing
import ShaderSSA.Proofs.Scoping

/-! The walk along the dominator tree in a function that respects dominance, one instruction at a
time. On the stacks is all that stands in an open block above the one being visited, or earlier in
that block, so that none that could be merged is missed. -/

namespace ShaderSSA.Walk

variable [FloatOps] {f : Function} {limit : Nat} {anc seen : List BlockId}
  {done rest : List InstrId} {w w' : Walk} {i j : InstrId} {key : ClassKey} {b : BlockId}

/-- All that stands in blocks of `anc` or among `done` is on the stacks. What has been `seen` is
packed, and if nothing could be merged then nothing was. -/
structure Sound (f : Function) (limit : Nat) (anc seen : List BlockId)
    (done : List InstrId) (w : Walk) : Prop extends Scoped f anc done [] w where
  evolves : f.Evolves w.func
  complete : ∀ i key, w.func.InClass i key → w.func.Passed (· ∈ anc) done i →
    (Assoc.get? w.classes i).isSome
  packed : w.func.PackedOn limit (w.func.Passed (· ∈ seen) done)
  still : f.PackedOn limit (fun _ => True) → w.func = f ∧ w.stats.merged = 0

theorem Sound.start (hf : f.Ssa) : Sound f limit [] [] [] (.start f) where
  toScoped := .start hf.tidy hf.verified
  evolves := hf.refl
  complete := by simp [Function.Passed]
  packed := by simp [Function.PackedOn, Function.Passed]
  still _ := ⟨rfl, rfl⟩

/-- Where the walk is: nothing from `b` downwards has been seen. -/
structure Sound.At (h : Sound f limit anc seen done w) (b : BlockId) (i : InstrId)
    (rest : List InstrId) : Prop extends Scoped.At h.toScoped b i rest where
  below : ∀ c ∈ seen, ¬ f.blocks.Dominates b c

namespace Sound.At

variable {h : Sound f limit anc seen done w}

/-- What has been seen lies in a block that can be reached, and the instruction at hand is not
before it. -/
theorem not_precedes (ha : h.At b i rest) (hj : w.func.Passed (· ∈ seen) done j) :
    ¬ w.func.Precedes i j := by
  rintro ⟨c, pre, post, hr, hc, hbefore⟩
  have hp := h.tidy.linked.placed
  have hi : w.func.home? i = some b := hp.mem_iff.mp (by simp [ha.block])
  have hjc : w.func.home? j = some c := hp.mem_iff.mp (by simp [hc])
  have hbc : w.func.blocks.Dominates b c := by
    rcases hbefore with hm | ⟨b', hb', hdom⟩
    · have hic : w.func.home? i = some c := hp.mem_iff.mp (by simp [hc, hm])
      obtain rfl : b = c := by simpa [hi] using hic
      exact .refl _ _
    · obtain rfl : b = b' := by simpa [hi] using hb'
      exact hdom.2
  rcases hj with hd | ⟨c', hseen, hc'⟩
  · obtain rfl : c = b := by
      have hjb : w.func.home? j = some b := hp.mem_iff.mp (by simp [ha.block, hd])
      simpa [hjc] using hjb
    obtain ⟨s, t, hst⟩ := List.append_of_mem hd
    have hsplit : w.func.blockInstrs c = s ++ j :: (t ++ i :: rest) := by simp [ha.block, hst]
    obtain ⟨rfl, -⟩ := hp.split_unique hc hsplit
    refine Function.not_before_self hp ha.block ?_
    rcases hbefore with hm | hdom
    · exact .inl (by simp [hst, hm])
    · exact .inr hdom
  · obtain rfl : c = c' := by simpa [hjc] using hc'
    exact ha.below c hseen (hbc.congr fun b => (h.flow b).symm)

theorem reachable_passed (ha : h.At b i rest) (hj : w.func.Passed (· ∈ seen) done j) {c : BlockId}
    (hc : w.func.home? j = some c) : w.func.blocks.Reachable c := by
  have hp := h.tidy.linked.placed
  rcases hj with hd | ⟨c', hseen, hc'⟩
  · have hjb : w.func.home? j = some b := hp.mem_iff.mp (by simp [ha.block, hd])
    obtain rfl : c = b := by simpa [hc] using hjb
    exact ha.toAt.reachable'
  · obtain rfl : c = c' := by simpa [hc] using hc'
    have hreach := not_not.mp (ha.below c hseen)
    exact hreach.reachable.congr h.flow

theorem calm (ha : h.At b i rest) {v : ValueId} (hv : w.func.dest? i = some v)
    (hj : w.func.Passed (· ∈ seen) done j) (hclass : w.func.InClass j key) : v ∉ key.srcs := by
  intro hmem
  obtain ⟨srcs, _, _, hm⟩ := hclass
  obtain ⟨c, hc⟩ := hm.linked
  have hssa := h.evolves.ssa
  have hr := ha.reachable_passed hj hc
  obtain ⟨pre, post, hblock⟩ := List.append_of_mem (hssa.tidy.linked.placed.mem_iff.mpr hc)
  obtain ⟨s, hread⟩ := Function.reads?_of_mem hc hm.body (hm.values ▸ hmem)
  obtain ⟨d, hd, hbefore⟩ := hssa.dominance.operand c pre j post s v hr hblock hread
  obtain rfl : i = d := by
    have hsource := (hssa.tidy.linked.defined.iff i v).mp hv
    simpa [hsource] using hd
  exact ha.not_precedes hj ⟨c, pre, post, hr, hblock, hbefore⟩

theorem packedOn (ha : h.At b i rest)
    (hnew : ∀ p key, w.func.InClass p key → w.func.InClass i key →
      w.func.Passed (· ∈ anc) done p → limit < w.func.width p + w.func.width i) :
    w.func.PackedOn limit (w.func.Passed (· ∈ seen) (done ++ [i])) := by
  have hp := h.tidy.linked.placed
  have hcases : ∀ p, w.func.Passed (· ∈ seen) (done ++ [i]) p →
      p = i ∨ w.func.Passed (· ∈ seen) done p := by
    rintro p (hm | hc)
    · rcases List.mem_append.mp hm with hm | hm
      · exact .inr (.inl hm)
      · exact .inl (by simpa using hm)
    · exact .inr (.inr hc)
  intro p q key hPp hPq hpk hqk hpq
  rcases hcases q hPq with rfl | hq
  · obtain ⟨c, pre, post, -, hc, hbefore⟩ := hpq
    have hqb : w.func.home? q = some b := hp.mem_iff.mp (by simp [ha.block])
    have hqc : w.func.home? q = some c := hp.mem_iff.mp (by simp [hc])
    obtain rfl : c = b := by simpa [hqc] using hqb
    obtain ⟨rfl, -⟩ := hp.split_unique hc ha.block
    exact hnew p key hpk hqk (ha.toAt.before_iff.mp hbefore)
  · rcases hcases p hPp with rfl | hp
    · exact absurd hpq (ha.not_precedes hq)
    · exact h.packed p q key hp hq hpk hqk hpq

theorem concat (ha : h.At b i rest) (hscoped : Scoped f anc (done ++ [i]) [] w')
    (hfunc : w'.func = w.func) (hmerged : w'.stats.merged = w.stats.merged)
    (hsome : ∀ j k, w.func.InClass j k → j = i ∨ (Assoc.get? w.classes j).isSome →
      (Assoc.get? w'.classes j).isSome)
    (hmiss : ∀ p k, w.func.InClass i k → Assoc.get? w.classes p = some k →
      limit < w.func.width p + w.func.width i) :
    Sound f limit anc seen (done ++ [i]) w' := by
  refine ⟨hscoped, hfunc ▸ h.evolves, fun j k hj hpass => ?_, ?_, fun hpacked => ?_⟩
  · rw [hfunc] at hj hpass
    refine hsome j k hj ?_
    by_cases hji : j = i
    · exact .inl hji
    · exact .inr (h.complete j k hj (hpass.imp_left fun hm => by simpa [hji] using hm))
  · rw [hfunc]
    refine ha.packedOn fun p k hp hi hpass => ?_
    obtain ⟨k', hk'⟩ := Option.isSome_iff_exists.mp (h.complete p k hp hpass)
    obtain rfl := (h.linked hk').1.unique hp
    exact hmiss p k' hi hk'
  · rw [hfunc, hmerged]
    exact h.still hpacked

theorem accept {done' : List InstrId} {p : InstrId} {m : Merged} (ha : h.At b i rest)
    (hlimit : limit ≤ 4) (hscoped : Scoped f anc done' [] w')
    (hblock : w'.func.blockInstrs b = done' ++ rest) (hin : w.func.InClass i key)
    (hp : Assoc.get? w.classes p = some key)
    (hmerge : w.func.merge? p i limit = .ok (some (m, w'.func)))
    (hsome : ∀ j, (Assoc.get? w'.classes j).isSome ↔
      j = m.instr ∨ j ≠ p ∧ (Assoc.get? w.classes j).isSome) :
    Sound f limit anc seen done' w' := by
  have hssa := h.evolves.ssa
  have hpclass := (h.linked hp).1
  have hbefore := ha.toAt.before_of_stacked hp
  -- the merge that the stacks have seen is the one that takes over from the pair
  obtain ⟨va, vb, x, hm, hfit⟩ : ∃ va vb x, w.func.MergesTo p i key m va vb x w'.func ∧
      w.func.width p + w.func.width i ≤ limit := by
    rcases hssa.merge hpclass hin ha.toAt.reachable' ha.block hbefore hlimit with
      ⟨hnone, -⟩ | ⟨_, va, vb, x, _, hagain, hm, hfit⟩
    · simp [hnone] at hmerge
    · rw [hmerge, Except.ok.injEq, Option.some.injEq, Prod.mk.injEq] at hagain
      obtain ⟨rfl, rfl⟩ := hagain
      exact ⟨va, vb, x, hm, hfit⟩
  obtain ⟨done₁, hblock₁, hpassed⟩ := hm.split h.tidy.linked.placed hpclass ha.block hbefore
  obtain rfl : done₁ = done' := List.append_cancel_right (hblock₁.symm.trans hblock)
  refine ⟨hscoped, h.evolves.trans hm.evolves, fun j k hj hpass => ?_, ?_, fun hpacked => ?_⟩
  · have hold := (hpassed _).2.2 j k hj hpass
    rw [hsome]
    rcases hm.inClass_cases hj with ⟨rfl, -⟩ | ⟨hjm, hjp, -, k', hk', -⟩
    · exact .inl rfl
    · rw [Merged.origin, if_neg hjm] at hold
      exact .inr ⟨hjp, h.complete j k' hk' hold⟩
  · exact hm.packedOn hssa hpclass h.packed (hpassed _).2.2
      fun j k hj hk => ha.calm hm.second hj hk
  · obtain ⟨hfunc, -⟩ := h.still hpacked
    rw [← hfunc] at hpacked
    have hlt := hpacked p i key trivial trivial hpclass hin (ha.toAt.precedes_of_stacked hp)
    omega

theorem add (ha : h.At b i rest) (hlimit : limit ≤ 4) :
    ∃ w' done', w.add limit i = .ok w' ∧ w'.func.blockInstrs b = done' ++ rest ∧
      Sound f limit anc seen done' w' := by
  obtain ⟨w', done', hrun, hblock, hscoped, hadds⟩ := ha.toAt.add hlimit
  refine ⟨w', done', hrun, hblock, ?_⟩
  have hdone : w'.func = w.func → done' = done ++ [i] := by
    intro hfunc
    rw [hfunc, ha.block, List.append_cons] at hblock
    exact (List.append_cancel_right hblock).symm
  cases hadds with
  | skip hnone hw =>
    obtain rfl := hw
    obtain rfl := hdone rfl
    refine ha.concat hscoped rfl rfl (fun j k hj hor => ?_) fun p k hi => absurd hi (hnone k)
    rcases hor with rfl | hsome
    · exact absurd hj (hnone k)
    · exact hsome
  | push hin hmiss hidle hsome =>
    obtain rfl := hdone hidle.func
    refine ha.concat hscoped hidle.func hidle.merged (fun j _ _ => (hsome j).mpr)
      fun p k hi hp => ?_
    obtain rfl := hi.unique hin
    exact hmiss p hp
  | accept hin hp hmerge _ _ hsome => exact ha.accept hlimit hscoped hblock hin hp hmerge hsome

end Sound.At

end ShaderSSA.Walk
