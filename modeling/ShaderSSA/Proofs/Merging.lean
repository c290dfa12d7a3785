import ShaderSSA.Proofs.Fusing

/-! What merging a pair does to runs. The first of the pair has been done wherever the second is, so
neither reads what they define, and the wide instruction takes over from both. -/

namespace ShaderSSA.Function

variable {f g : Function} {i j a b : InstrId} {key key' : ClassKey} {va vb x : ValueId}
  {srcs srcsA srcsB : List Operand} {widthA widthB : Nat} {W : Wide} {A B : BlockId}
  {pre post done rest : List InstrId}

theorem Widens.evolves [FloatOps] (hw : f.Widens a key srcsA srcsB widthA widthB W g) (hf : f.Ssa)
    (hA : f.blockInstrs A = pre ++ a :: post) (hr : f.blocks.Reachable A)
    (hma : f.Member key a srcsA va widthA) : f.Evolves g := by
  have hhome : f.home? a = some A := hf.tidy.linked.placed.mem_iff.mp (by simp [hA])
  have hlane : W.op.isLaneWise := hw.op ▸ hma.laneWise
  have h4 : W.width ≤ 4 := by
    have hshape : g.shape? W.value = some ⟨W.width, W.bits⟩ := by simp [hw.appended.shape]
    exact (hw.tidy.linked.defined.width W.value _ hshape).2
  refine hw.appended.evolves hf hw.tidy hA (fun w hmem => ?_) hw.fits fun vars io e he => ?_
  · have hw' : w ∈ (Body.alu ⟨key.op, srcsA⟩).srcs := by
      simpa only [Body.srcs, hw.values, hma.values] using hmem
    obtain ⟨s, hs⟩ := reads?_of_mem hhome hma.body hw'
    obtain ⟨d, hd, hbefore⟩ := hf.dominance.operand A pre a post s w hr hA hs
    exact ⟨d, hd, hbefore.mono (fun _ => rfl) (fun _ hc => hc) fun hm => by simp [hm]⟩
  · obtain ⟨y, -, halu⟩ := settled_alu hf he (.inl (by simp)) hma.body hma.dest
    rw [hma.destShape] at halu
    obtain ⟨hbits, hready⟩ := Env.ready_of_alu halu
    have hl : ∀ o ∈ W.srcs, ∀ k ∈ o.swizzle.toList.take W.width, k < 4 := by
      intro o ho k hk
      obtain ⟨t, ht, hlanes⟩ := hw.fits.laneWise hlane ho
      have hk' := hlanes k hk
      have ht4 := (hf.tidy.linked.defined.width o.value t ht).2
      omega
    have hwide := Env.alu_laneWise hlane hw.fits.1 h4 hl (hw.left.ready hready)
    have hbits' : W.bits = 32 := hw.bits.trans hbits
    rw [hbits']
    exact ⟨_, by rw [Env.effect, hwide, Option.map_some]⟩

theorem Appended.leads {n d : InstrId} {body : Body} {shape : Shape} {v : ValueId}
    (happ : f.Appended a n body shape v g) (h : f.Leads a d) : g.Leads a d := by
  by_cases hda : d = a
  · exact .inl hda
  · rcases h with rfl | ⟨c, done, rest, hc, hblock, hbefore⟩
    · exact absurd rfl hda
    · refine .inr ⟨c, done.flatMap fun j => if j = a then [a, n] else [j],
        rest.flatMap fun j => if j = a then [a, n] else [j], hc.congr happ.flow, ?_,
        happ.before hbefore⟩
      rw [happ.blocks, hblock, List.flatMap_append, List.flatMap_cons, if_neg hda]
      simp

variable [FloatOps]

/-- A member whose lanes the wide instruction computes has its half in the wide value. -/
theorem Member.ready {d : InstrId} {h : Half} {vs : List ValueId}
    (hm : f.Member key d srcs h.value h.width)
    (hw : f.Widens a key srcsA srcsB widthA widthB W g) (hev : f.Evolves g) (hf : f.Ssa)
    (hA : f.blockInstrs A = pre ++ a :: post) (hr : f.blocks.Reachable A)
    (hcover : Covers W.srcs srcs h.offset h.width)
    (hleads : f.Leads a d) (hfit : h.offset + h.width ≤ W.width) (hnarrow : h.width < W.width)
    (hmem : h.value ∈ vs) (hcalm : ∀ w ∈ key.srcs, w ∉ vs) : W.Ready g a d h vs := by
  have happ := hw.appended
  have hnd := hf.tidy.linked.placed.nodup A
  rw [hA] at hnd
  obtain ⟨c, hc⟩ := hm.linked
  have hdn : d ≠ W.instr := happ.ne_new hc
  have hreadsNew : ∀ s w, g.reads? ⟨W.instr, s⟩ = some w → w ∉ vs := by
    intro s w hread
    have hbody : g.body? W.instr = some (.alu ⟨W.op, W.srcs⟩) := by simp [happ.body]
    exact hcalm w (hw.values ▸ List.mem_of_getElem? (srcs_of_reads hread hbody))
  refine ⟨⟨hev.ssa, ⟨?_, ?_, ?_, hw.op ▸ hm.laneWise, hw.op ▸ hm.notMove, ⟨srcs, ?_, hcover⟩, ?_,
    ?_, hfit, hnarrow⟩, ?_, happ.leads hleads, ?_⟩, hmem, ?_, hreadsNew⟩
  · simp [happ.body]
  · simp [happ.dest]
  · simp [happ.shape]
  · rw [happ.body, if_neg hdn, hm.body, hw.op]
  · rw [happ.dest, if_neg hdn, hm.dest]
  · rw [happ.shape, if_neg (happ.ne_value (hasValue_of_shape hm.shape)), hm.shape, hw.bits]
  · refine ⟨A, pre, post, hr.congr happ.flow, ?_⟩
    rw [happ.blocks, hA, expand_split hnd]
    rfl
  · intro t ht s hread
    obtain rfl : t = W.instr := by simpa using ht
    exact hreadsNew s h.value hread hmem
  · intro s w hread
    rw [happ.reads_old (u := ⟨d, s⟩) hdn] at hread
    exact hcalm w (hm.values ▸ List.mem_of_getElem? (srcs_of_reads hread hm.body))

/-- What comes to pass when one instruction, which defines `x`, takes over from the two that define
`va` and `vb`. -/
structure MergesTo (f : Function) (a b : InstrId) (key : ClassKey) (m : Merged)
    (va vb x : ValueId) (g : Function) : Prop extends Fuses f a b key m va vb x g where
  evolves : f.Evolves g

theorem Fusion.evolves {f₁ f₂ : Function} {mid r : Rewiring} (hf : f.Ssa)
    (h : f.Fusion a b key srcsA srcsB va vb widthA widthB W f₁ mid r f₂ g)
    (hA : f.blockInstrs A = pre ++ a :: post) (hAr : f.blocks.Reachable A)
    (hleads : f.Leads a b) (hcalm : ∀ w ∈ key.srcs, w ∉ [va, vb]) : f.Evolves g := by
  have happ := h.widens.appended
  have hwidth := h.widens.width
  have hdef := hf.tidy.linked.defined
  have h1A : 1 ≤ widthA := (hdef.width va _ h.first.shape).1
  have h1B : 1 ≤ widthB := (hdef.width vb _ h.second.shape).1
  have hev₁ := h.widens.evolves hf hA hAr h.first
  have hreadyA : W.Ready f₁ a a ⟨va, 0, widthA⟩ [va, vb] :=
    h.first.ready h.widens hev₁ hf hA hAr h.widens.left (.inl rfl) (by simp only; omega)
      (by simp only; omega) (by simp) hcalm
  have hreadyB : W.Ready f₁ a b ⟨vb, widthA, widthB⟩ [va, vb] :=
    h.second.ready h.widens hev₁ hf hA hAr h.widens.right hleads (by simp only; omega)
      (by simp only; omega) (by simp) hcalm
  have hev₂ := h.turns.evolves hreadyA hreadyB
  obtain ⟨tail, hs⟩ := h.turns.since h.widens.tidy h.widens.verified h.offersA h.offersB
    hreadyA.mem hreadyB.mem
  have hspA := (hs.rewires.stands hev₂ hreadyA).spans
  have hspB := (hs.rewires.stands hev₂ hreadyB).spans
  obtain ⟨srcs₁, hbodyA, -⟩ := hspA.half
  obtain ⟨srcs₂, hbodyB, -⟩ := hspB.half
  obtain ⟨B, hB⟩ := h.second.linked
  have hhomeA : f.home? a = some A := hf.tidy.linked.placed.mem_iff.mp (by simp [hA])
  have hA₂ := hs.rewires.home a A (happ.home_old hhomeA)
  have hB₂ := hs.rewires.home b B (happ.home_old hB)
  have hgone : ∀ {d : InstrId} {k : Half}, r.func.dest? d = some k.value →
      k ∈ [(⟨va, 0, widthA⟩ : Half), ⟨vb, widthA, widthB⟩] → r.func.Unread d := by
    intro d k hd hk v hv
    obtain rfl := Option.some.inj (hd.symm.trans hv)
    exact ⟨h.turns.unread k hk, h.turns.untested k hk⟩
  have hunreadA := hgone hspA.halfDest (by simp)
  have hunreadB := hgone hspB.halfDest (by simp)
  have hr := replaced_of_remove hev₂.ssa.tidy.linked.placed h.removeFirst
  have hev₃ := hunreadA.evolves hev₂.ssa hA₂ hbodyA h.removeFirst h.between
  obtain ⟨hB₃, hbodyB₃⟩ := hr.linked hB₂ h.apart.symm
  have hev₄ := (hunreadB.replaced hr).evolves hev₃.ssa hB₃ (hbodyB₃.trans hbodyB)
    h.removeSecond h.without.tidy
  exact ((hev₁.trans hev₂).trans hev₃).trans hev₄

/-- Two instructions of one class, the first before the second, are merged if they fit. -/
theorem Ssa.merge (hf : f.Ssa) (ha : f.InClass a key) (hb : f.InClass b key)
    (hr : f.blocks.Reachable B) (hB : f.blockInstrs B = done ++ b :: rest)
    (hab : f.Before a B done) {limit : Nat} (hlimit : limit ≤ 4) :
    f.merge? a b limit = .ok none ∧ limit < f.width a + f.width b ∨
      ∃ m va vb x g, f.merge? a b limit = .ok (some (m, g)) ∧
        f.MergesTo a b key m va vb x g ∧ f.width a + f.width b ≤ limit := by
  have hp := hf.tidy.linked.placed
  have hdef := hf.tidy.linked.defined
  have hne : a ≠ b := by
    rintro rfl
    exact not_before_self hp hB hab
  rcases merge_ok hf.tidy hf.verified ha hb hne hlimit with
    hnone | ⟨srcsA, srcsB, va, vb, widthA, widthB, W, f₁, mid, r, f₂, g, hrun, h, hfit⟩
  · exact .inl hnone
  · obtain ⟨A, pre, post, -, hAr, hA, -⟩ := hab.position hp hr hB
    have hcalm : ∀ w ∈ key.srcs, w ∉ [va, vb] := by
      intro w hw
      have hnotA := hf.dominance.fresh hp hAr hA (.inr rfl) h.first.body (h.first.values ▸ hw)
      have hnotB := hf.dominance.fresh hp hr hB (.inr rfl) h.second.body (h.second.values ▸ hw)
      have hwa : w ≠ va := fun he => hnotA (he ▸ (hdef.iff a va).mp h.first.dest)
      have hwb : w ≠ vb := fun he => hnotB (he ▸ (hdef.iff b vb).mp h.second.dest)
      simp [hwa, hwb]
    exact .inr ⟨_, va, vb, W.value, g, hrun, ⟨h.fuses hf.tidy,
      h.evolves hf hA hAr (.inr ⟨B, done, rest, hr, hB, hab⟩) hcalm⟩, hfit⟩

end ShaderSSA.Function
