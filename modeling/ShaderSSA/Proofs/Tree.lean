import ShaderSSA.Proofs.Settled
import ShaderSSA.Proofs.ParentSweeps

/-! The dominator tree is the tree of dominance. The parent of a block is the nearest of its strict
dominators, its depth is their number, and the children of a block divide what it strictly
dominates among themselves. -/

namespace ShaderSSA

namespace Parents

variable {blocks : Blocks} {t : Parents} {b p x : BlockId}

theorem above?_eq_some_iff : t.above? b = some p ↔ t.find? b = some p ∧ p ≠ b := by
  simp [above?, Option.filter_eq_some_iff]

theorem Exact.above?_iff (ht : t.Exact blocks) :
    t.above? b = some p ↔ blocks.Reachable b ∧ blocks.StrictlyDominates p b ∧
      ∀ a, blocks.StrictlyDominates a b → blocks.Dominates a p := by
  rw [above?_eq_some_iff]
  constructor
  · rintro ⟨hp, hne⟩
    have hr := (ht.placed b).mp ⟨p, hp⟩
    have hdom := (ht.above p b hr).mp (.up hp .refl)
    refine ⟨hr, ⟨hne, hdom⟩, fun a ha => ?_⟩
    obtain ⟨q, hq, haq⟩ := ((ht.above a b hr).mpr ha.2).parent ha.1
    obtain rfl := Option.some.inj (hp.symm.trans hq)
    exact (ht.above a p (hdom.reachable hr)).mp haq
  · rintro ⟨hr, hp, hnear⟩
    obtain ⟨q, hq, hpq⟩ := ((ht.above p b hr).mpr hp.2).parent hp.1
    have hqb : blocks.Dominates q b := (ht.above q b hr).mp (.up hq .refl)
    have hqr := hqb.reachable hr
    have hb : b ≠ entryBlock := by
      rintro rfl
      exact Blocks.not_strictlyDominates_entry hp
    have hne : q ≠ b := by
      rintro rfl
      exact Nat.lt_irrefl _ (ht.rising.parent q q hq hb).1
    obtain rfl : p = q :=
      ((ht.above p q hqr).mp hpq).antisymm (hnear q ⟨hne, hqb⟩) (hp.2.reachable hr)
    exact ⟨hq, hne⟩

theorem Exact.idxOf_above (ht : t.Exact blocks) (h : t.above? b = some p) :
    blocks.reversePostorder.idxOf p < blocks.reversePostorder.idxOf b := by
  obtain ⟨hp, hne⟩ := above?_eq_some_iff.mp h
  exact (Above.up hp .refl).lt ht.rising hne

theorem Exact.exists_above (ht : t.Exact blocks) (hr : blocks.Reachable b)
    (hb : b ≠ entryBlock) : ∃ p, t.above? b = some p := by
  obtain ⟨p, hp⟩ := (ht.placed b).mpr hr
  refine ⟨p, above?_eq_some_iff.mpr ⟨hp, ?_⟩⟩
  rintro rfl
  exact Nat.lt_irrefl _ (ht.rising.parent p p hp hb).1

/-- What a block strictly dominates is at or below a block whose parent it is. -/
theorem Exact.exists_below (ht : t.Exact blocks) (hr : blocks.Reachable x)
    (h : blocks.StrictlyDominates b x) : ∃ c, t.above? c = some b ∧ blocks.Dominates c x := by
  obtain ⟨hne, hdom⟩ := h
  have habove := (ht.above b x hr).mpr hdom
  clear hdom
  induction habove with
  | refl => exact absurd rfl hne
  | @up x p hp _ ih =>
    have hpx : blocks.Dominates p x := (ht.above p x hr).mp (.up hp .refl)
    by_cases hbp : b = p
    · exact ⟨x, above?_eq_some_iff.mpr ⟨hbp ▸ hp, hne⟩, .refl blocks x⟩
    · obtain ⟨c, hc, hcp⟩ := ih (hpx.reachable hr) hbp
      exact ⟨c, hc, hcp.trans hpx⟩

end Parents

namespace DominatorTree

variable {blocks : Blocks} {parents : Parents} {a b c d p x : BlockId}

theorem build_ok (hw : blocks.Wired) :
    ∃ parents : Parents, build blocks = ofParents blocks parents ∧ parents.Exact blocks := by
  obtain ⟨parents, hok, hexact⟩ := Parents.ofBlocks_ok hw
  exact ⟨parents, by simp [build, hok], hexact⟩

theorem isReachable_iff (hw : blocks.Wired) :
    (build blocks).isReachable b = true ↔ blocks.Reachable b := by
  obtain ⟨parents, hbuild, hexact⟩ := build_ok hw
  rw [hbuild, ← hexact.placed b]
  simp [isReachable, ofParents, Parents.Placed, Option.isSome_iff_exists]

/-- The parent of a block is the strict dominator that all the others dominate. -/
theorem parent?_eq_some_iff (hw : blocks.Wired) :
    (build blocks).parent? b = some p ↔ blocks.Reachable b ∧ blocks.StrictlyDominates p b ∧
      ∀ a, blocks.StrictlyDominates a b → blocks.Dominates a p := by
  obtain ⟨parents, hbuild, hexact⟩ := build_ok hw
  rw [hbuild]
  exact hexact.above?_iff

theorem exists_parent (hw : blocks.Wired) (hr : blocks.Reachable b) (hb : b ≠ entryBlock) :
    ∃ p, (build blocks).parent? b = some p := by
  obtain ⟨parents, hbuild, hexact⟩ := build_ok hw
  rw [hbuild]
  exact hexact.exists_above hr hb

theorem exists_child (hw : blocks.Wired) (hr : blocks.Reachable x)
    (h : blocks.StrictlyDominates b x) :
    ∃ c, (build blocks).parent? c = some b ∧ blocks.Dominates c x := by
  obtain ⟨parents, hbuild, hexact⟩ := build_ok hw
  rw [hbuild]
  exact hexact.exists_below hr h

theorem child_unique (hw : blocks.Wired)
    (hc : (build blocks).parent? c = some b) (hd : (build blocks).parent? d = some b)
    (hr : blocks.Reachable x) (hcx : blocks.Dominates c x) (hdx : blocks.Dominates d x) :
    c = d := by
  obtain ⟨hcr, hcb, hcall⟩ := (parent?_eq_some_iff hw).mp hc
  obtain ⟨hdr, hdb, hdall⟩ := (parent?_eq_some_iff hw).mp hd
  by_contra hne
  rcases hcx.total hdx hr with h | h
  · exact hcb.1 ((hdall c ⟨hne, h⟩).antisymm hcb.2 hcr).symm
  · exact hdb.1 ((hcall d ⟨Ne.symm hne, h⟩).antisymm hdb.2 hdr).symm

theorem foldl_adopt (ids : List BlockId) (t : SideTable .block (List BlockId)) (p : BlockId) :
    ((ids.foldl (adopt parents) t).get? p).getD [] =
      (t.get? p).getD [] ++ ids.filter (parents.above? · = some p) := by
  induction ids generalizing t with
  | nil => simp
  | cons b ids ih =>
    have hadopt : ((adopt parents t b).get? p).getD [] =
        (t.get? p).getD [] ++ [b].filter (parents.above? · = some p) := by
      cases hq : parents.above? b with
      | none => simp [adopt, hq]
      | some q =>
        simp only [adopt, hq, SideTable.getD_set (d := []) rfl]
        by_cases hpq : p = q
        · simp [hq, hpq]
        · simp [hq, hpq, Ne.symm hpq]
    rw [List.foldl_cons, ih, hadopt, List.append_assoc, ← List.filter_append]
    rfl

theorem children_ofParents (blocks : Blocks) (p : BlockId) :
    (ofParents blocks parents).children p =
      blocks.ids.filter ((ofParents blocks parents).parent? · = some p) := by
  rw [children, ofParents, foldl_adopt, SideTable.getD_ofSize (d := []) rfl, List.nil_append]
  rfl

theorem children_eq (hw : blocks.Wired) (p : BlockId) :
    (build blocks).children p = blocks.ids.filter ((build blocks).parent? · = some p) := by
  obtain ⟨parents, hbuild, -⟩ := build_ok hw
  rw [hbuild]
  exact children_ofParents blocks p

theorem mem_children_iff (hw : blocks.Wired) :
    c ∈ (build blocks).children p ↔ (build blocks).parent? c = some p := by
  rw [children_eq hw]
  simp only [List.mem_filter, decide_eq_true_eq, and_iff_right_iff_imp]
  intro h
  exact (Arena.mem_ids _ _).mpr (hw.index_lt ((parent?_eq_some_iff hw).mp h).1)

theorem nodup_children (hw : blocks.Wired) (p : BlockId) : ((build blocks).children p).Nodup := by
  rw [children_eq hw]
  refine List.Nodup.filter _ (List.Nodup.map (fun x y hxy => ?_) List.nodup_range)
  simpa using hxy

/-- The blocks in `done` have the number of their strict dominators as depth. -/
def Deepened (blocks : Blocks) (done : List BlockId) (t : SideTable .block Nat) : Prop :=
  ∀ b, (t.get? b).getD 0 = if b ∈ done then (blocks.strictDominators b).ncard else 0

theorem Deepened.deepen {done rest : List BlockId} {t : SideTable .block Nat} (hw : blocks.Wired)
    (ht : parents.Exact blocks) (hsplit : blocks.reversePostorder = done ++ b :: rest)
    (h : Deepened blocks done t) : Deepened blocks (done ++ [b]) (deepen parents t b) := by
  have ho := hw.ordered
  have hr : blocks.Reachable b := (ho.mem b).mp (by simp [hsplit])
  have hnot : b ∉ done := by
    have hnd := ho.nodup
    rw [hsplit] at hnd
    exact fun h => (List.nodup_append.mp hnd).2.2 b h b (by simp) rfl
  intro c
  cases hp : parents.above? b with
  | none =>
    have hzero : (blocks.strictDominators b).ncard = 0 := by
      by_cases hb : b = entryBlock
      · simp [hb, Blocks.strictDominators, Blocks.not_strictlyDominates_entry]
      · obtain ⟨p, hp'⟩ := ht.exists_above hr hb
        simp [hp] at hp'
    simp only [DominatorTree.deepen, hp, h c, List.mem_append, List.mem_singleton]
    by_cases hcb : c = b
    · simp [hcb, hnot, hzero]
    · simp [hcb]
  | some p =>
    obtain ⟨-, hpb, hnear⟩ := ht.above?_iff.mp hp
    have hdone : p ∈ done := by
      have hlt := ht.idxOf_above hp
      rw [hsplit, List.idxOf_append_of_notMem hnot] at hlt
      by_contra hpd
      rw [List.idxOf_append_of_notMem hpd] at hlt
      simp at hlt
    simp only [DominatorTree.deepen, hp, SideTable.getD_set (d := 0) rfl, h p, if_pos hdone,
      ← hw.ncard_strictDominators hr hpb hnear, h c, List.mem_append, List.mem_singleton]
    by_cases hcb : c = b
    · simp [hcb]
    · simp [hcb]

theorem Deepened.foldl {done rest : List BlockId} {t : SideTable .block Nat} (hw : blocks.Wired)
    (ht : parents.Exact blocks) (hsplit : blocks.reversePostorder = done ++ rest)
    (h : Deepened blocks done t) :
    Deepened blocks blocks.reversePostorder (rest.foldl (DominatorTree.deepen parents) t) := by
  induction rest generalizing done t with
  | nil =>
    rw [hsplit, List.append_nil]
    exact h
  | cons b rest ih => exact ih (by simpa using hsplit) (h.deepen hw ht hsplit)

theorem depth_eq (hw : blocks.Wired) (b : BlockId) :
    (build blocks).depth b = (blocks.strictDominators b).ncard := by
  obtain ⟨parents, hbuild, hexact⟩ := build_ok hw
  have hempty : Deepened blocks [] (.ofSize blocks.size) := fun b => by
    simpa using SideTable.getD_ofSize (d := 0) rfl blocks.size b
  have hdepths := hempty.foldl hw hexact (List.nil_append _).symm b
  rw [hbuild]
  refine hdepths.trans ?_
  by_cases hr : blocks.Reachable b
  · simp [hw.ordered.mem, hr]
  · simp [hw.ordered.mem, hr, Blocks.strictDominators]

theorem depth_lt (hw : blocks.Wired) (hr : blocks.Reachable b)
    (h : blocks.StrictlyDominates a b) : (build blocks).depth a < (build blocks).depth b := by
  rw [depth_eq hw, depth_eq hw]
  exact hw.ncard_strictDominators_lt hr h

theorem depth_child (hw : blocks.Wired) (hc : (build blocks).parent? c = some b) :
    (build blocks).depth c = (build blocks).depth b + 1 := by
  obtain ⟨hr, hbc, hnear⟩ := (parent?_eq_some_iff hw).mp hc
  rw [depth_eq hw, depth_eq hw]
  exact hw.ncard_strictDominators hr hbc hnear

theorem depth_lt_size (hw : blocks.Wired) (hr : blocks.Reachable b) :
    (build blocks).depth b < (build blocks).size := by
  obtain ⟨parents, hbuild, hexact⟩ := build_ok hw
  have hindex : ∀ c, blocks.Reachable c → c.index < (build blocks).size := by
    intro c hc
    obtain ⟨p, hp⟩ := (hexact.placed c).mpr hc
    by_contra hge
    rw [hbuild] at hge
    have hnone : parents.entries[c.index]? = none := Array.getElem?_eq_none (Nat.le_of_not_lt hge)
    simp [SideTable.find?, SideTable.get?, hnone] at hp
  have hself : b ∉ blocks.strictDominators b := fun h => h.2.1 rfl
  have hmaps : ∀ c ∈ insert b (blocks.strictDominators b),
      c.index ∈ Set.Iio (build blocks).size := by
    rintro c (rfl | ⟨-, hc⟩)
    · exact hindex c hr
    · exact hindex c (hc.2.reachable hr)
  have hle : (insert b (blocks.strictDominators b)).ncard ≤ (Set.Iio (build blocks).size).ncard :=
    Set.ncard_le_ncard_of_injOn Id.index hmaps (fun c _ d _ h => by cases c; cases d; simp_all)
      (Set.finite_Iio _)
  rw [Set.ncard_insert_of_notMem hself (hw.finite_strictDominators b), Set.ncard_Iio_nat] at hle
  rw [depth_eq hw]
  omega

theorem climb_eq (hw : blocks.Wired) (hr : blocks.Reachable b) {steps : Nat}
    (hsteps : (build blocks).depth b ≤ steps) (h : blocks.Dominates a b) :
    (build blocks).climb ((build blocks).depth a) steps b = some a := by
  induction steps generalizing b with
  | zero =>
    have hab : a = b := by
      by_contra hab
      have hlt := depth_lt hw hr ⟨hab, h⟩
      omega
    rw [climb, hab]
  | succ steps ih =>
    by_cases hab : a = b
    · simp [climb, hab]
    · have hb : b ≠ entryBlock := by
        rintro rfl
        exact Blocks.not_strictlyDominates_entry ⟨hab, h⟩
      obtain ⟨p, hp⟩ := exists_parent hw hr hb
      obtain ⟨-, hpb, hnear⟩ := (parent?_eq_some_iff hw).mp hp
      have hchild := depth_child hw hp
      rw [climb, if_pos (depth_lt hw hr ⟨hab, h⟩), hp, Option.bind_some]
      exact ih (hpb.2.reachable hr) (by omega) (hnear a ⟨hab, h⟩)

theorem climb_dominates (hw : blocks.Wired) (hr : blocks.Reachable b) {depth steps : Nat}
    (h : (build blocks).climb depth steps b = some a) : blocks.Dominates a b := by
  induction steps generalizing b with
  | zero =>
    obtain rfl : b = a := by simpa [climb] using h
    exact .refl blocks b
  | succ steps ih =>
    rw [climb] at h
    split at h
    · obtain ⟨p, hp, h⟩ := Option.bind_eq_some_iff.mp h
      have hpb := ((parent?_eq_some_iff hw).mp hp).2.1.2
      exact (ih (hpb.reachable hr) h).trans hpb
    · obtain rfl := Option.some.inj h
      exact .refl blocks b

theorem dominates_iff (hw : blocks.Wired) :
    (build blocks).dominates a b = true ↔ blocks.Reachable b ∧ blocks.Dominates a b := by
  simp only [dominates, Bool.and_eq_true, isReachable_iff hw, beq_iff_eq]
  constructor
  · rintro ⟨⟨-, hr⟩, hclimb⟩
    exact ⟨hr, climb_dominates hw hr hclimb⟩
  · rintro ⟨hr, hdom⟩
    exact ⟨⟨hdom.reachable hr, hr⟩, climb_eq hw hr (Nat.le_refl _) hdom⟩

theorem strictlyDominates_iff (hw : blocks.Wired) :
    (build blocks).strictlyDominates a b = true ↔
      blocks.Reachable b ∧ blocks.StrictlyDominates a b := by
  simp only [strictlyDominates, Bool.and_eq_true, bne_iff_ne, dominates_iff hw,
    Blocks.StrictlyDominates]
  exact and_left_comm

end DominatorTree

namespace Function

variable {f : Function} {b : BlockId} {done : List InstrId} {v : ValueId}

/-- Whether the definition of `v` has been done where `done` is done in `b`. -/
def definedBefore (f : Function) (t : DominatorTree) (b : BlockId) (done : List InstrId)
    (v : ValueId) : Bool :=
  (f.source? v).any fun d => done.contains d || (f.home? d).any (t.strictlyDominates · b)

def respectsDominance (f : Function) : Bool :=
  let t := DominatorTree.build f.blocks
  f.layout.all fun b => !t.isReachable b ||
    ((f.blockInstrs b).zipIdx.all fun p => (f.srcs? p.1).all fun vs =>
      vs.all (f.definedBefore t b ((f.blockInstrs b).take p.2))) &&
    (f.condition? b).all (f.definedBefore t b (f.blockInstrs b))

theorem definedBefore_iff (he : f.Edges) (hr : f.blocks.Reachable b) :
    f.definedBefore (.build f.blocks) b done v = true ↔
      ∃ d, f.source? v = some d ∧ f.Before d b done := by
  simp only [definedBefore, Option.any_eq_true, Bool.or_eq_true, List.contains_iff_mem,
    DominatorTree.strictlyDominates_iff he.wired, hr, true_and, Before]

/-- Dominance can be checked on the tree. -/
theorem dominanceRespecting_of_check (hf : f.Linked) (h : f.respectsDominance = true) :
    f.DominanceRespecting := by
  have hblock : ∀ b, f.blocks.Reachable b →
      (∀ (k : Nat) i vs, (f.blockInstrs b)[k]? = some i → f.srcs? i = some vs → ∀ v ∈ vs,
        ∃ d, f.source? v = some d ∧ f.Before d b ((f.blockInstrs b).take k)) ∧
      ∀ v, f.condition? b = some v →
        ∃ d, f.source? v = some d ∧ f.Before d b (f.blockInstrs b) := by
    intro b hr
    have hlt := hf.edges.wired.index_lt hr
    have hb := List.all_eq_true.mp h b ((Arena.mem_ids _ _).mpr hlt)
    rw [(DominatorTree.isReachable_iff hf.edges.wired).mpr hr, Bool.not_true,
      Bool.false_or, Bool.and_eq_true] at hb
    refine ⟨fun k i vs hk hvs v hv => ?_, fun v hv => ?_⟩
    · have hi := List.all_eq_true.mp hb.1 (i, k) (List.mem_zipIdx_iff_getElem?.mpr hk)
      simp only [hvs, Option.all_some] at hi
      exact (definedBefore_iff hf.edges hr).mp (List.all_eq_true.mp hi v hv)
    · have hc := hb.2
      simp only [hv, Option.all_some] at hc
      exact (definedBefore_iff hf.edges hr).mp hc
  refine ⟨fun b done i rest s v hr hb hv => ?_, fun b v hr hv => ?_⟩
  · obtain ⟨_, body, -, hbody, hs⟩ := reads?_iff.mp hv
    have hi : (f.blockInstrs b)[done.length]? = some i := by simp [hb]
    obtain ⟨d, hd, hbefore⟩ := (hblock b hr).1 done.length i body.srcs hi
      (by simp [srcs?_eq_map, hbody]) v (List.mem_of_getElem? hs)
    exact ⟨d, hd, by simpa [hb] using hbefore⟩
  · obtain ⟨d, hd, hbefore⟩ := (hblock b hr).2 v hv
    rcases hbefore with hmem | ⟨c, hc, hdom⟩
    · exact ⟨d, b, hd, hf.placed.mem_iff.mp hmem, .refl _ b⟩
    · exact ⟨d, c, hd, hc, hdom.2⟩

end Function


end ShaderSSA
