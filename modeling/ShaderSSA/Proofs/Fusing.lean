import ShaderSSA.Proofs.Classes
import ShaderSSA.Proofs.Rewiring

/-! One instruction in place of two of one class. The wide instruction goes behind the first, the
readers of both turn to it, and both go. Nothing is asked of the order in which they stand, and each
may read what it defines. -/

namespace ShaderSSA

/-- Where what stands in `g` came from, when `m` took the place of `a`. -/
def Merged.origin (m : Merged) (a j : InstrId) : InstrId := if j = m.instr then a else j

/-- What stands in `g` where `j` stood. -/
def Merged.heir (m : Merged) (a j : InstrId) : InstrId := if j = a then m.instr else j

namespace Function

variable {f g : Function} {i j a b p q : InstrId} {key key' : ClassKey} {m : Merged}
  {va vb x v : ValueId} {srcs srcsA srcsB : List Operand} {width widthA widthB limit : Nat}
  {W : Wide} {B c : BlockId}

/-- An instruction behind `a` that computes the lanes of two members of a class. -/
structure Widens (f : Function) (a : InstrId) (key : ClassKey) (srcsA srcsB : List Operand)
    (widthA widthB : Nat) (W : Wide) (g : Function) : Prop where
  op : W.op = key.op
  width : W.width = widthA + widthB
  bits : W.bits = key.bits
  values : W.srcs.map (·.value) = key.srcs
  left : Covers W.srcs srcsA 0 widthA
  right : Covers W.srcs srcsB widthA widthB
  fits : f.AluFits (some ⟨W.width, W.bits⟩) ⟨W.op, W.srcs⟩
  appended : f.Appended a W.instr (.alu ⟨W.op, W.srcs⟩) ⟨W.width, W.bits⟩ W.value g
  tidy : g.Tidy
  verified : g.Verified

theorem widen_ok (hf : f.Tidy) (hv : f.Verified) (hma : f.Member key a srcsA va widthA)
    (hmb : f.Member key b srcsB vb widthB) (h4 : widthA + widthB ≤ 4) :
    ∃ (W : Wide) (g : Function),
      ((srcsA.zip srcsB).mapM fun (x, y) => joinOperands a b widthA widthB x y) = .ok W.srcs ∧
      f.insert (.after a) (.alu ⟨key.op, W.srcs⟩) (some ⟨widthA + widthB, key.bits⟩) =
        .ok (W.instr, g) ∧ f.Widens a key srcsA srcsB widthA widthB W g := by
  obtain ⟨A, hA⟩ := hma.linked
  have h1 : 1 ≤ widthA := (hf.linked.defined.width va _ hma.shape).1
  obtain ⟨srcs, hjoin, hsame, hleft, hright, hall⟩ :=
    joinAll_ok (a := a) (b := b) (hma.values.trans hmb.values.symm) h1 h4
  have hfits := joined_fits hma.laneWise (hma.fits hv) (hmb.fits hv) h4 hleft.length hall
  have hlive : ∀ w ∈ (Body.alu ⟨key.op, srcs⟩).srcs, f.Live w := by
    intro w hw
    have hw' : w ∈ (Body.alu ⟨key.op, srcsA⟩).srcs := by
      simpa only [Body.srcs, hsame] using hw
    obtain ⟨s, hs⟩ := reads?_of_mem hA hma.body hw'
    exact hv.closed.source _ w hs
  obtain ⟨n, v, g, hins, hg, hvg, happ⟩ := appendAlu_ok hf hv hA hlive hfits
    ⟨Nat.le_trans h1 (Nat.le_add_right _ _), h4⟩
  exact ⟨⟨n, v, key.op, srcs, widthA + widthB, key.bits⟩, g, hjoin, hins, rfl, rfl, rfl,
    hsame.trans hma.values, hleft, hright, hfits, happ, hg, hvg⟩

theorem Widens.offers {h : Half} (hw : f.Widens a key srcsA srcsB widthA widthB W g)
    (ha : f.home? a = some c) (hm : f.Member key i srcs h.value h.width)
    (hfit : h.offset + h.width ≤ W.width) (hnarrow : h.width < W.width) : W.Offers g h := by
  have happ := hw.appended
  refine ⟨⟨c, by rw [happ.home, if_pos rfl, ha]⟩, by simp [happ.dest], by simp [happ.shape], ?_,
    hfit, hnarrow⟩
  rw [happ.shape, if_neg (happ.ne_value (hasValue_of_shape hm.shape)), hm.shape, hw.bits]

theorem Widens.member (hw : f.Widens a key srcsA srcsB widthA widthB W g)
    (hma : f.Member key a srcsA va widthA) :
    g.Member key W.instr W.srcs W.value (widthA + widthB) := by
  have happ := hw.appended
  obtain ⟨A, hA⟩ := hma.linked
  refine ⟨⟨A, by rw [happ.home, if_pos rfl, hA]⟩, ?_, ?_, ?_, hw.values, hma.notMove,
    hma.laneWise⟩
  · rw [happ.body, if_pos rfl, hw.op]
  · rw [happ.dest, if_pos rfl]
  · rw [happ.shape, if_pos rfl, hw.bits, hw.width]

theorem filter_filter_expand {n : InstrId} {tail l : List InstrId} (hna : n ≠ a)
    (hnb : n ≠ b) (hta : a ∉ tail) (htb : b ∉ tail) (hl : n ∉ l) :
    (((l.flatMap fun j => if j = a then [a, n] else [j]).flatMap fun j =>
      if j = n then n :: tail else [j]).filter (· != a)).filter (· != b) =
      l.flatMap fun j => if j = a then n :: tail else if j = b then [] else [j] := by
  rw [filter_ne_eq_flatMap, filter_ne_eq_flatMap, List.flatMap_assoc, List.flatMap_assoc,
    List.flatMap_assoc]
  refine List.flatMap_congr fun j hj => ?_
  have hjn : j ≠ n := fun he => hl (he ▸ hj)
  by_cases hja : j = a
  · subst hja
    have htail : (tail.flatMap fun k => (if k = j then [] else [k]).flatMap fun k =>
        if k = b then [] else [k]) = tail := by
      rw [← List.flatMap_assoc, expand_of_not_mem hta, expand_of_not_mem htb]
    simp [hjn, hna, hnb, htail]
  · by_cases hjb : j = b
    · subst hjb
      simp [hja, hjn]
    · simp [hja, hjb, hjn]

/-- Taking out two instructions that nobody reads. -/
structure WithoutPair (f : Function) (a b : InstrId) (g : Function) : Prop where
  tidy : g.Tidy
  verified : g.Verified
  flow : ∀ c, g.blocks.successors c = f.blocks.successors c
  blocks : ∀ c, g.blockInstrs c = ((f.blockInstrs c).filter (· != a)).filter (· != b)
  home : ∀ j c, f.home? j = some c → j ≠ a → j ≠ b → g.home? j = some c
  body : ∀ j c, f.home? j = some c → j ≠ a → j ≠ b → g.body? j = f.body? j
  dest : g.dest? = f.dest?
  shape : g.shape? = f.shape?

theorem removePair_ok {A : BlockId} (hf : f.Tidy) (hv : f.Verified) (hab : a ≠ b)
    (hA : f.home? a = some A) (hB : f.home? b = some B) (hunreadA : f.Unread a)
    (hunreadB : f.Unread b) :
    ∃ g k, f.remove a = .ok g ∧ g.remove b = .ok k ∧ g.Tidy ∧ f.WithoutPair a b k := by
  obtain ⟨g, hg, htidy, hrg⟩ := hunreadA.remove_ok hf hA
  have hB' := (hrg.linked hB hab.symm).1
  have hunread := hunreadB.replaced hrg
  obtain ⟨k, hk, htidy', hrk⟩ := hunread.remove_ok htidy hB'
  have hverified := hunread.verified htidy (hunreadA.verified hf hv hA hg) hB' hk
  refine ⟨g, k, hg, hk, htidy, htidy', hverified,
    fun c => by rw [hrk.flow, hrg.flow], fun c => by rw [hrk.blocks, hrg.blocks], ?_, ?_,
    hrk.dest.trans hrg.dest, hrk.shape.trans hrg.shape⟩
  · intro j c hj hja hjb
    exact (hrk.linked (hrg.linked hj hja).1 hjb).1
  · intro j c hj hja hjb
    obtain ⟨hjg, hbody⟩ := hrg.linked hj hja
    exact (hrk.linked hjg hjb).2.trans hbody

/-- The stages of a merge: `f₁` has the wide instruction too, in `r.func` nobody reads the pair, and
`f₂` is without the first. -/
structure Fusion (f : Function) (a b : InstrId) (key : ClassKey) (srcsA srcsB : List Operand)
    (va vb : ValueId) (widthA widthB : Nat) (W : Wide) (f₁ : Function) (mid r : Rewiring)
    (f₂ g : Function) : Prop where
  apart : a ≠ b
  first : f.Member key a srcsA va widthA
  second : f.Member key b srcsB vb widthB
  widens : f.Widens a key srcsA srcsB widthA widthB W f₁
  offersA : W.Offers f₁ ⟨va, 0, widthA⟩
  offersB : W.Offers f₁ ⟨vb, widthA, widthB⟩
  turns : Rewiring.Turns W ⟨va, 0, widthA⟩ ⟨vb, widthA, widthB⟩ f₁ mid r
  removeFirst : r.func.remove a = .ok f₂
  between : f₂.Tidy
  removeSecond : f₂.remove b = .ok g
  without : r.func.WithoutPair a b g

/-- Two instructions of one class are merged if they fit. -/
theorem merge_ok (hf : f.Tidy) (hv : f.Verified) (ha : f.InClass a key) (hb : f.InClass b key)
    (hne : a ≠ b) (hlimit : limit ≤ 4) :
    f.merge? a b limit = .ok none ∧ limit < f.width a + f.width b ∨
      ∃ srcsA srcsB va vb widthA widthB W f₁ mid r f₂ g,
        f.merge? a b limit = .ok (some (⟨W.instr, r.rewired, r.copies⟩, g)) ∧
        f.Fusion a b key srcsA srcsB va vb widthA widthB W f₁ mid r f₂ g ∧
        f.width a + f.width b ≤ limit := by
  have hdef := hf.linked.defined
  obtain ⟨srcsA, va, widthA, hma⟩ := ha
  obtain ⟨srcsB, vb, widthB, hmb⟩ := hb
  obtain ⟨A, hA⟩ := hma.linked
  obtain ⟨B, hB⟩ := hmb.linked
  obtain ⟨xA, hxA, hsA⟩ := hma.value
  obtain ⟨xB, hxB, hsB⟩ := hmb.value
  rw [hma.width_eq, hmb.width_eq]
  by_cases hlt : limit < widthA + widthB
  · refine .inl ⟨?_, hlt⟩
    simp only [merge?, hma.aluParts, hmb.aluParts, ok_bind, hxA, hxB, hsA, hsB, beq_self_eq_true,
      Checked.require, if_true, hlt]
    rfl
  right
  have h1A : 1 ≤ widthA := (hdef.width va _ hma.shape).1
  have h1B : 1 ≤ widthB := (hdef.width vb _ hmb.shape).1
  obtain ⟨W, f₁, hjoin, hins, hw⟩ := widen_ok (b := b) hf hv hma hmb (by omega)
  have happ := hw.appended
  have hwidth := hw.width
  have hoA : W.Offers f₁ ⟨va, 0, widthA⟩ :=
    hw.offers hA hma (by simp only; omega) (by simp only; omega)
  have hoB : W.Offers f₁ ⟨vb, widthA, widthB⟩ :=
    hw.offers hA hmb (by simp only; omega) (by simp only; omega)
  obtain ⟨mid, r, hhalves, ht⟩ := Rewiring.halves_ok hw.tidy hw.verified hoA hoB
  have hmem : va ∈ [va, vb] ∧ vb ∈ [va, vb] := by simp
  obtain ⟨tail, hs⟩ := ht.since hw.tidy hw.verified hoA hoB hmem.1 hmem.2
  obtain ⟨-, hsteady⟩ := ht.steady hw.tidy hw.verified hoA hoB
  have hunread : ∀ w ∈ [va, vb], ∀ u, r.func.reads? u ≠ some w := by simpa using ht.unread
  have huntested : ∀ w ∈ [va, vb], ∀ c, r.func.condition? c ≠ some w := by
    simpa using ht.untested
  have hgone : ∀ {d v c}, f.dest? d = some v → f.home? d = some c → v ∈ [va, vb] →
      r.func.Unread d := by
    intro d v c hd hc hv w hw
    rw [hs.rewires.dest d c (happ.home_old hc), happ.dest, if_neg (happ.ne_new hc), hd] at hw
    obtain rfl := Option.some.inj hw
    exact ⟨hunread v hv, huntested v hv⟩
  obtain ⟨f₂, g, hf₂, hg, htidy, hpair⟩ := removePair_ok hsteady.tidy hsteady.verified hne
    (hs.rewires.home a A (happ.home_old hA)) (hs.rewires.home b B (happ.home_old hB))
    (hgone hma.dest hA (by simp)) (hgone hmb.dest hB (by simp))
  refine ⟨srcsA, srcsB, va, vb, widthA, widthB, W, f₁, mid, r, f₂, g, ?_,
    ⟨hne, hma, hmb, hw, hoA, hoB, ht, hf₂, htidy, hg, hpair⟩, by omega⟩
  obtain ⟨y, hy, hyd⟩ := Option.bind_eq_some_iff.mp hoA.dest
  have hinstr : f₁.instr W.instr = .ok y := instr_eq_ok.mpr hy
  simp only [merge?, hma.aluParts, hmb.aluParts, ok_bind, hxA, hxB, hsA, hsB, beq_self_eq_true,
    Checked.require, if_true, hlt, if_false, hjoin, hins, hinstr, Checked.orElse, hyd, hhalves, hf₂,
    hg]
  rfl

section Steps

variable {vs : List ValueId} {tail rewired : List InstrId} {f₁ f₂ : Function}

/-- The members of a class while their sources turn away. -/
theorem Member.turned (h : f₁.Member key j srcs v width) (hr : Rewires f₁ W vs tail rewired f₂)
    (hunread : ∀ w ∈ vs, ∀ u, f₂.reads? u ≠ some w) :
    ∃ srcs', f₂.Member (key.turn vs W.value) j srcs' v width := by
  obtain ⟨c, hc⟩ := h.linked
  obtain ⟨⟨op, srcs'⟩, hal', hturn⟩ := hr.turned j c _ hc (alu?_eq_some.mpr h.body)
  obtain rfl : op = key.op := hturn.op
  have hbody := alu?_eq_some.mp hal'
  have hm := h.carry (fun c hc => hr.home j c hc) hbody (hr.dest j c hc) fun t ht => hr.shape v t ht
  have hvalues := hturn.values fun o ho hmem => by
    obtain ⟨s, hread⟩ := reads?_of_mem (hr.home j c hc) hbody (List.mem_map_of_mem ho)
    exact hunread o.value hmem _ hread
  rw [h.values] at hvalues
  refine ⟨srcs', ?_⟩
  simpa only [ClassKey.turn, ← hvalues] using hm

theorem Member.calm (h : f₁.Member key j srcs v width) (hr : Rewires f₁ W vs tail rewired f₂)
    (hunread : ∀ w ∈ vs, ∀ u, f₂.reads? u ≠ some w) (hj : j ∉ rewired) :
    ∀ w ∈ key.srcs, w ∉ vs := by
  intro w hw hmem
  obtain ⟨c, hc⟩ := h.linked
  have hbody : f₂.body? j = some (.alu ⟨key.op, srcs⟩) :=
    alu?_eq_some.mp ((hr.kept j c hc hj).trans (alu?_eq_some.mpr h.body))
  obtain ⟨s, hread⟩ := reads?_of_mem (hr.home j c hc) hbody (h.values ▸ hw)
  exact hunread w hmem _ hread

theorem Appended.member {shape : Shape} {body : Body} {n : InstrId}
    (happ : f.Appended a n body shape v g) {w : ValueId} (h : f.Member key j srcs w width) :
    g.Member key j srcs w width := by
  obtain ⟨c, hc⟩ := h.linked
  have hjn : j ≠ n := happ.ne_new hc
  exact ⟨⟨c, happ.home_old hc⟩, by rw [happ.body, if_neg hjn, h.body],
    by rw [happ.dest, if_neg hjn, h.dest], happ.shape_old h.shape, h.values, h.notMove, h.laneWise⟩

theorem WithoutPair.member (hg : f.WithoutPair a b g) (h : f.Member key j srcs v width)
    (hja : j ≠ a) (hjb : j ≠ b) : g.Member key j srcs v width := by
  obtain ⟨c, hc⟩ := h.linked
  exact ⟨⟨c, hg.home j c hc hja hjb⟩, by rw [hg.body j c hc hja hjb, h.body],
    by rw [hg.dest, h.dest], by rw [hg.shape, h.shape], h.values, h.notMove, h.laneWise⟩

/-- Lane-wise arithmetic was such before sources turned. -/
theorem InClass.before (hf : f.Defined) (h : g.InClass j key) (hj : f.home? j = some c)
    (hop : ∀ al, f.alu? j = some al → ∃ al', g.alu? j = some al' ∧ al'.op = al.op)
    (hnone : f.alu? j = none → g.alu? j = none) (hdest : g.dest? j = f.dest? j) :
    ∃ key', f.InClass j key' := by
  obtain ⟨srcs, v, width, hm⟩ := h
  have hal := alu?_eq_some.mpr hm.body
  cases halu : f.alu? j with
  | none => simp [hnone halu] at hal
  | some al =>
    obtain ⟨al', hal', hsame⟩ := hop al halu
    have hkey : key.op = al.op := by
      rw [alu?_eq_some.mpr hm.body, Option.some.injEq] at hal'
      rw [← hsame, ← hal']
    have hv : f.dest? j = some v := hdest.symm.trans hm.dest
    obtain ⟨z, hz, -⟩ := Option.map_eq_some_iff.mp ((hf.iff j v).mp hv)
    have hshape : f.shape? v = some z.shape := by simp [shape?, hz]
    refine ⟨⟨al.op, z.shape.bits, al.srcs.map (·.value)⟩, al.srcs, v, z.shape.width, ⟨c, hj⟩,
      alu?_eq_some.mp halu, hv, hshape, rfl, hkey ▸ hm.notMove, hkey ▸ hm.laneWise⟩

end Steps

/-- One instruction, which defines `x`, in place of the two that define `va` and `vb`. -/
structure Fuses (f : Function) (a b : InstrId) (key : ClassKey) (m : Merged)
    (va vb x : ValueId) (g : Function) : Prop where
  tidy : g.Tidy
  verified : g.Verified
  flow : ∀ c, g.blocks.successors c = f.blocks.successors c
  blocks : ∃ tail, (∀ n ∈ m.instr :: tail, ∀ c, f.home? n ≠ some c) ∧
    ∀ c, g.blockInstrs c = (f.blockInstrs c).flatMap fun j =>
      if j = a then m.instr :: tail else if j = b then [] else [j]
  first : f.dest? a = some va
  second : f.dest? b = some vb
  unknown : f.hasValue x = false
  wide : g.InClass m.instr (key.turn [va, vb] x)
  width : g.width m.instr = f.width a + f.width b
  kept : ∀ j key', f.InClass j key' → j ≠ a → j ≠ b →
    g.InClass j (key'.turn [va, vb] x) ∧ g.width j = f.width j
  unturned : ∀ j key', f.InClass j key' → j ∉ m.rewired → key'.turn [va, vb] x = key'
  settled : m.instr ∉ m.rewired → key.turn [va, vb] x = key
  only : ∀ j key', g.InClass j key' →
    j = m.instr ∨ j ≠ a ∧ j ≠ b ∧ ∃ key'', f.InClass j key''

section Stages

variable {f₁ f₂ : Function} {mid r : Rewiring} {tail : List InstrId}

theorem Fusion.ne_pair {new : List InstrId}
    (h : f.Fusion a b key srcsA srcsB va vb widthA widthB W f₁ mid r f₂ g)
    (hfresh : ∀ n ∈ new, ∀ c, f.home? n ≠ some c) (hj : j ∈ new) : j ≠ a ∧ j ≠ b := by
  obtain ⟨A, hA⟩ := h.first.linked
  obtain ⟨B, hB⟩ := h.second.linked
  refine ⟨?_, ?_⟩ <;> rintro rfl
  · exact hfresh j hj A hA
  · exact hfresh j hj B hB

/-- Where the first of the pair stood are the wide instruction and copies of its value, all new. -/
theorem Fusion.rewires (hf : f.Placed)
    (h : f.Fusion a b key srcsA srcsB va vb widthA widthB W f₁ mid r f₂ g) :
    ∃ tail, Rewires f₁ W [va, vb] tail r.rewired r.func ∧
      (∀ n ∈ W.instr :: tail, ∀ c, f.home? n ≠ some c) ∧
      ∀ c, g.blockInstrs c = (f.blockInstrs c).flatMap fun j =>
        if j = a then W.instr :: tail else if j = b then [] else [j] := by
  have happ := h.widens.appended
  have hmem : va ∈ [va, vb] ∧ vb ∈ [va, vb] := by simp
  obtain ⟨tail, hsince⟩ :=
    h.turns.since h.widens.tidy h.widens.verified h.offersA h.offersB hmem.1 hmem.2
  have hr := hsince.rewires
  have hfresh : ∀ n ∈ W.instr :: tail, ∀ c, f.home? n ≠ some c := by
    intro n hn c hc
    rcases List.mem_cons.mp hn with rfl | hn
    · exact happ.ne_new hc rfl
    · exact hr.fresh n hn c (happ.home_old hc)
  obtain ⟨hna, hnb⟩ := h.ne_pair hfresh (List.mem_cons_self ..)
  have hta : a ∉ tail := fun hm => (h.ne_pair hfresh (List.mem_cons_of_mem _ hm)).1 rfl
  have htb : b ∉ tail := fun hm => (h.ne_pair hfresh (List.mem_cons_of_mem _ hm)).2 rfl
  refine ⟨tail, hr, hfresh, fun c => ?_⟩
  have hnew : W.instr ∉ f.blockInstrs c := fun hm => happ.ne_new (hf.mem_iff.mp hm) rfl
  rw [h.without.blocks, hr.blocks, happ.blocks, filter_filter_expand hna hnb hta htb hnew]

theorem Fusion.not_inClass_copy
    (h : f.Fusion a b key srcsA srcsB va vb widthA widthB W f₁ mid r f₂ g)
    (hr : Rewires f₁ W [va, vb] tail r.rewired r.func) (hj : j ∈ tail) (hja : j ≠ a)
    (hjb : j ≠ b) (hc : r.func.home? j = some c) : ¬ g.InClass j key' := by
  rintro ⟨srcs', v, width, hm⟩
  obtain ⟨o, hbody, -⟩ := hr.copies j hj
  rw [← h.without.body j c hc hja hjb, hm.body, Option.some.injEq, Body.alu.injEq,
    Alu.mk.injEq] at hbody
  have hmove := hm.notMove
  rw [hbody.1] at hmove
  exact Bool.noConfusion hmove

theorem Fusion.inClass_old (hf : f.Defined)
    (h : f.Fusion a b key srcsA srcsB va vb widthA widthB W f₁ mid r f₂ g)
    (hr : Rewires f₁ W [va, vb] tail r.rewired r.func) (hj : f.home? j = some c) (hja : j ≠ a)
    (hjb : j ≠ b) (hclass : g.InClass j key') : ∃ key'', f.InClass j key'' := by
  have happ := h.widens.appended
  have hjn : j ≠ W.instr := happ.ne_new hj
  have hj₁ := happ.home_old hj
  have halu₁ : f₁.alu? j = f.alu? j := by rw [alu?, alu?, happ.body, if_neg hjn]
  have halu₂ : g.alu? j = r.func.alu? j := by
    rw [alu?, alu?, h.without.body j c (hr.home j c hj₁) hja hjb]
  refine hclass.before hf hj (fun al hal => ?_) (fun hal => ?_) ?_
  · obtain ⟨al', hal', hturn⟩ := hr.turned j c al hj₁ (halu₁.trans hal)
    exact ⟨al', halu₂.trans hal', hturn.op⟩
  · exact halu₂.trans (hr.other j c hj₁ (halu₁.trans hal))
  · rw [h.without.dest, hr.dest j c hj₁, happ.dest, if_neg hjn]

theorem Fusion.fuses (hf : f.Tidy)
    (h : f.Fusion a b key srcsA srcsB va vb widthA widthB W f₁ mid r f₂ g) :
    f.Fuses a b key ⟨W.instr, r.rewired, r.copies⟩ va vb W.value g := by
  have hp := hf.linked.placed
  have happ := h.widens.appended
  have hg := h.without
  obtain ⟨tail, hr, hfresh, hblocks⟩ := h.rewires hp
  have hunread : ∀ w ∈ [va, vb], ∀ u, r.func.reads? u ≠ some w := by simpa using h.turns.unread
  obtain ⟨hna, hnb⟩ := h.ne_pair hfresh (List.mem_cons_self ..)
  have hwide := h.widens.member h.first
  obtain ⟨srcsW, hturned⟩ := hwide.turned hr hunread
  have hfinal := hg.member hturned hna hnb
  refine ⟨hg.tidy, hg.verified, fun c => by rw [hg.flow, hr.flow, happ.flow],
    ⟨tail, hfresh, hblocks⟩, h.first.dest, h.second.dest, happ.unknown,
    ⟨srcsW, W.value, _, hfinal⟩, by rw [hfinal.width_eq, h.first.width_eq, h.second.width_eq],
    ?_, ?_, fun hnot => ClassKey.turn_of_calm (hwide.calm hr hunread hnot), ?_⟩
  · rintro j key' ⟨srcs', v, width, hm⟩ hja hjb
    obtain ⟨srcs'', hm''⟩ := (happ.member hm).turned hr hunread
    have hm₂ := hg.member hm'' hja hjb
    exact ⟨⟨srcs'', v, width, hm₂⟩, by rw [hm₂.width_eq, hm.width_eq]⟩
  · rintro j key' ⟨srcs', v, width, hm⟩ hj
    exact ClassKey.turn_of_calm ((happ.member hm).calm hr hunread hj)
  · intro j key' hclass
    obtain ⟨c, hc⟩ : ∃ c, g.home? j = some c := by
      obtain ⟨_, _, _, hm⟩ := hclass
      exact hm.linked
    have hmem := hg.tidy.linked.placed.mem_iff.mpr hc
    rw [hblocks, List.mem_flatMap] at hmem
    obtain ⟨k, hk, hjk⟩ := hmem
    split at hjk
    · rename_i hka
      rcases List.mem_cons.mp hjk with rfl | hjt
      · exact .inl rfl
      · have hplaced := (h.turns.steady h.widens.tidy h.widens.verified h.offersA
          h.offersB).2.tidy.linked.placed
        have hj₂ : r.func.home? j = some c := by
          refine hplaced.mem_iff.mp ?_
          rw [hr.blocks, List.mem_flatMap]
          refine ⟨W.instr, ?_, by simp [hjt]⟩
          rw [happ.blocks, List.mem_flatMap]
          exact ⟨k, hk, by simp [hka]⟩
        obtain ⟨hja, hjb⟩ := h.ne_pair hfresh hjk
        exact absurd hclass (h.not_inClass_copy hr hjt hja hjb hj₂)
    · rename_i hka
      split at hjk
      · simp at hjk
      · rename_i hkb
        obtain rfl := List.mem_singleton.mp hjk
        exact .inr ⟨hka, hkb,
          h.inClass_old hf.linked.defined hr (hp.mem_iff.mp hk) hka hkb hclass⟩

end Stages

/-- One instruction comes before another on every way to it. -/
def Precedes (f : Function) (p q : InstrId) : Prop :=
  ∃ b done rest, f.blocks.Reachable b ∧ f.blockInstrs b = done ++ q :: rest ∧ f.Before p b done

theorem Precedes.homes (h : f.Precedes p q) (hf : f.Placed) :
    ∃ b c, f.home? p = some b ∧ f.home? q = some c ∧ f.blocks.Reachable b ∧
      f.blocks.Reachable c := by
  obtain ⟨c, done, rest, hr, hc, hbefore⟩ := h
  obtain ⟨b, pre, post, hb, hrb, -⟩ := hbefore.position hf hr hc
  exact ⟨b, c, hb, hf.mem_iff.mp (by simp [hc]), hrb, hr⟩

/-- Among `done`, or in a block of `S`. -/
def Passed (f : Function) (S : BlockId → Prop) (done : List InstrId) (j : InstrId) : Prop :=
  j ∈ done ∨ ∃ c, S c ∧ f.home? j = some c

namespace Fuses

variable {done rest : List InstrId}

theorem home (h : f.Fuses a b key m va vb x g) (hf : f.Placed) (hj : f.home? j = some c)
    (hja : j ≠ a) (hjb : j ≠ b) : g.home? j = some c := by
  obtain ⟨tail, -, hblocks⟩ := h.blocks
  refine h.tidy.linked.placed.mem_iff.mp ?_
  rw [hblocks, List.mem_flatMap]
  exact ⟨j, hf.mem_iff.mpr hj, by simp [hja, hjb]⟩

theorem home_wide (h : f.Fuses a b key m va vb x g) (hf : f.Placed) (ha : f.home? a = some c) :
    g.home? m.instr = some c := by
  obtain ⟨tail, -, hblocks⟩ := h.blocks
  refine h.tidy.linked.placed.mem_iff.mp ?_
  rw [hblocks, List.mem_flatMap]
  exact ⟨a, hf.mem_iff.mpr ha, by simp⟩

theorem fresh (h : f.Fuses a b key m va vb x g) (c : BlockId) : f.home? m.instr ≠ some c := by
  obtain ⟨tail, hfresh, -⟩ := h.blocks
  exact hfresh m.instr (by simp) c

/-- A member of a class of `g` is the wide instruction, or one that was there and has turned. -/
theorem inClass_cases (h : f.Fuses a b key m va vb x g) (hj : g.InClass j key') :
    j = m.instr ∧ key' = key.turn [va, vb] x ∨ j ≠ m.instr ∧ j ≠ a ∧ j ≠ b ∧
      ∃ key'', f.InClass j key'' ∧ key' = key''.turn [va, vb] x ∧ g.width j = f.width j := by
  rcases h.only j key' hj with rfl | ⟨hja, hjb, key'', hkey''⟩
  · exact .inl ⟨rfl, hj.unique h.wide⟩
  · obtain ⟨hturn, hwidth⟩ := h.kept j key'' hkey'' hja hjb
    refine .inr ⟨?_, hja, hjb, key'', hkey'', hj.unique hturn, hwidth⟩
    rintro rfl
    obtain ⟨_, _, _, hm⟩ := hkey''
    obtain ⟨c, hc⟩ := hm.linked
    exact h.fresh c hc

theorem home_origin (h : f.Fuses a b key m va vb x g) (hf : f.Placed) (ha : f.InClass a key)
    (hj : g.InClass j key') (hc : g.home? j = some c) : f.home? (m.origin a j) = some c := by
  rcases h.inClass_cases hj with ⟨rfl, -⟩ | ⟨hjm, hja, hjb, key'', ⟨_, _, _, hm⟩, -, -⟩
  · obtain ⟨_, _, _, hma⟩ := ha
    obtain ⟨A, hA⟩ := hma.linked
    have hsame := (h.home_wide hf hA).symm.trans hc
    simpa [Merged.origin, hA] using hsame
  · obtain ⟨C, hC⟩ := hm.linked
    have hsame := (h.home hf hC hja hjb).symm.trans hc
    simpa [Merged.origin, hjm, hC] using hsame

theorem mem_origin {tail l : List InstrId} (h : f.Fuses a b key m va vb x g)
    (hfresh : ∀ n ∈ m.instr :: tail, ∀ c, f.home? n ≠ some c) (hj : g.InClass j key')
    (hl : ∀ k ∈ l, ∃ c, f.home? k = some c)
    (hm : j ∈ l.flatMap fun j => if j = a then m.instr :: tail else if j = b then [] else [j]) :
    m.origin a j ∈ l := by
  obtain ⟨k, hk, hjk⟩ := List.mem_flatMap.mp hm
  obtain ⟨c, hc⟩ := hl k hk
  rcases h.inClass_cases hj with ⟨rfl, -⟩ | ⟨hjm, hja, hjb, key'', ⟨_, _, _, hmj⟩, -, -⟩
  · rw [Merged.origin, if_pos rfl]
    split at hjk
    · rename_i hka
      exact hka ▸ hk
    · split at hjk
      · simp at hjk
      · obtain rfl := List.mem_singleton.mp hjk
        exact absurd hc (h.fresh c)
  · rw [Merged.origin, if_neg hjm]
    obtain ⟨C, hC⟩ := hmj.linked
    split at hjk
    · exact absurd hC (hfresh j hjk C)
    · split at hjk
      · simp at hjk
      · exact List.mem_singleton.mp hjk ▸ hk

theorem precedes (h : f.Fuses a b key m va vb x g) (hf : f.Placed) (ha : f.InClass a key)
    {key'' : ClassKey} (hp : g.InClass p key') (hq : g.InClass q key'')
    (hpq : g.Precedes p q) : f.Precedes (m.origin a p) (m.origin a q) := by
  obtain ⟨c, done', rest', hr, hc, hbefore⟩ := hpq
  obtain ⟨tail, hfresh, hblocks⟩ := h.blocks
  have hplaced := h.tidy.linked.placed
  have hqc : g.home? q = some c := hplaced.mem_iff.mp (by simp [hc])
  have hmem := hf.mem_iff.mpr (h.home_origin hf ha hq hqc)
  have hnd := hplaced.nodup c
  rw [hblocks] at hnd hc
  have hexpand : ∃ more, (if m.origin a q = a then m.instr :: tail
      else if m.origin a q = b then [] else [m.origin a q]) = [] ++ q :: more := by
    rcases h.inClass_cases hq with ⟨rfl, -⟩ | ⟨hqm, hqa, hqb, -⟩
    · exact ⟨tail, by simp [Merged.origin]⟩
    · exact ⟨[], by simp [Merged.origin, hqm, hqa, hqb]⟩
  obtain ⟨more, hmore⟩ := hexpand
  obtain ⟨done, rest, hl, rfl⟩ := split_expand hnd hmem hmore hc
  refine ⟨c, done, rest, hr.congr fun b => (h.flow b).symm, hl, ?_⟩
  rcases hbefore with hm | ⟨k, hk, hdom⟩
  · rw [List.append_nil] at hm
    exact .inl (h.mem_origin hfresh hp (fun k hk => ⟨c, hf.mem_iff.mp (by simp [hl, hk])⟩) hm)
  · exact .inr ⟨k, h.home_origin hf ha hp hk, hdom.congr fun b => (h.flow b).symm⟩

theorem split (h : f.Fuses a b key m va vb x g) (hf : f.Placed) (ha : f.InClass a key)
    (hB : f.blockInstrs B = done ++ b :: rest) (hab : f.Before a B done) :
    ∃ done', g.blockInstrs B = done' ++ rest ∧ ∀ S : BlockId → Prop,
      (∀ j, f.Passed S done j → j ≠ a → j ≠ b → g.Passed S done' j) ∧
      (f.Passed S done a → g.Passed S done' m.instr) ∧
      ∀ j key', g.InClass j key' → g.Passed S done' j → f.Passed S done (m.origin a j) := by
  obtain ⟨tail, hfresh, hblocks⟩ := h.blocks
  have hnd := hf.nodup B
  rw [hB, List.nodup_append, List.nodup_cons] at hnd
  obtain ⟨-, ⟨hbrest, -⟩, hapart⟩ := hnd
  have hba : b ≠ a := by
    rintro rfl
    exact not_before_self hf hB hab
  have harest : a ∉ rest := by
    intro hm
    rcases hab with hd | ⟨c, hc, hdom⟩
    · exact hapart a hd a (by simp [hm]) rfl
    · have haB : f.home? a = some B := hf.mem_iff.mp (by simp [hB, hm])
      exact hdom.1 (by simpa [haB] using hc.symm)
  -- neither of the pair is left to visit, so what is left stays as it is
  have hsame : (rest.flatMap fun j =>
      if j = a then m.instr :: tail else if j = b then [] else [j]) = rest := by
    have hone : ∀ j ∈ rest,
        (if j = a then m.instr :: tail else if j = b then [] else [j]) = [j] := by
      intro j hj
      have hja : j ≠ a := fun he => harest (he ▸ hj)
      have hjb : j ≠ b := fun he => hbrest (he ▸ hj)
      simp [hja, hjb]
    rw [List.flatMap_congr hone, List.flatMap_singleton']
  refine ⟨done.flatMap fun j => if j = a then m.instr :: tail else if j = b then [] else [j],
    ?_, fun S => ⟨fun j hj hja hjb => ?_, fun hpa => ?_, fun j key' hj hpj => ?_⟩⟩
  · rw [hblocks, hB, List.flatMap_append, List.flatMap_cons, hsame, if_neg hba, if_pos rfl]
    simp
  · rcases hj with hd | ⟨c, hS, hc⟩
    · exact .inl (List.mem_flatMap.mpr ⟨j, hd, by simp [hja, hjb]⟩)
    · exact .inr ⟨c, hS, h.home hf hc hja hjb⟩
  · rcases hpa with hd | ⟨c, hS, hc⟩
    · exact .inl (List.mem_flatMap.mpr ⟨a, hd, by simp⟩)
    · exact .inr ⟨c, hS, h.home_wide hf hc⟩
  · rcases hpj with hm | ⟨c, hS, hc⟩
    · exact .inl (h.mem_origin hfresh hj (fun k hk => ⟨B, hf.mem_iff.mp (by simp [hB, hk])⟩) hm)
    · exact .inr ⟨c, hS, h.home_origin hf ha hj hc⟩

theorem home_heir (h : f.Fuses a b key m va vb x g) (hf : f.Placed) (hj : f.home? j = some c)
    (hjb : j ≠ b) : g.home? (m.heir a j) = some c := by
  rw [Merged.heir]
  split
  · rename_i hja
    exact h.home_wide hf (hja ▸ hj)
  · rename_i hja
    exact h.home hf hj hja hjb

theorem precedes_heir (h : f.Fuses a b key m va vb x g) (hf : f.Placed) (hp : p ≠ b) (hq : q ≠ b)
    (hpq : f.Precedes p q) : g.Precedes (m.heir a p) (m.heir a q) := by
  obtain ⟨c, done, rest, hr, hc, hbefore⟩ := hpq
  obtain ⟨tail, -, hblocks⟩ := h.blocks
  let expand := fun j => if j = a then m.instr :: tail else if j = b then [] else [j]
  have hexpand : ∀ j, j ≠ b → ∃ more, expand j = m.heir a j :: more := by
    intro j hj
    by_cases hja : j = a
    · exact ⟨tail, by simp [expand, Merged.heir, hja]⟩
    · exact ⟨[], by simp [expand, Merged.heir, hja, hj]⟩
  obtain ⟨more, hmore⟩ := hexpand q hq
  refine ⟨c, done.flatMap expand, more ++ rest.flatMap expand, hr.congr h.flow, ?_, ?_⟩
  · have hblock : g.blockInstrs c = (f.blockInstrs c).flatMap expand := hblocks c
    rw [hblock, hc, List.flatMap_append, List.flatMap_cons, hmore, List.cons_append]
  · rcases hbefore with hm | ⟨k, hk, hdom⟩
    · obtain ⟨more', hmore'⟩ := hexpand p hp
      exact .inl (List.mem_flatMap.mpr ⟨p, hm, by simp [hmore']⟩)
    · exact .inr ⟨k, h.home_heir hf hk hp, hdom.congr h.flow⟩

end Fuses

end Function

end ShaderSSA
