import ShaderSSA.Proofs.Ascent

/-! Sweeps. A visit moves its block up if it moves it at all, and never past a block that dominates
it; where nothing moves any more, the blocks above a block are those that dominate it. -/

namespace ShaderSSA.Parents

variable {blocks : Blocks} {order : List BlockId} {t t' : Parents} {b c d p q w x y : BlockId}
  {m : Nat}

/-- What holds within a sweep when the blocks before position `m` have been visited. A block that
is still to be visited is below everything that the ways up from its predecessors share, and what
is above its parent and still to be visited is above the predecessors before it as well. -/
structure Midway (blocks : Blocks) (order : List BlockId) (m : Nat) (t : Parents) : Prop
    extends Rising order t where
  placed : ∀ b ∈ order, order.idxOf b < m → t.Placed b
  lower : ∀ b c, t.Placed b → c ∈ order → order.idxOf c ≤ order.idxOf b → t.Placed c
  done : ∀ b p y, t.find? b = some p → y ∈ blocks.preds b → t.Placed y →
    order.idxOf y < order.idxOf b → order.idxOf b < m → t.Above p y
  ahead : ∀ b p y c, t.find? b = some p → y ∈ blocks.preds b → t.Placed y →
    order.idxOf y < order.idxOf b → m ≤ order.idxOf b → t.Above c p → m ≤ order.idxOf c →
    t.Above c y
  lowest : ∀ b p w, t.find? b = some p → b ≠ entryBlock →
    (∀ y ∈ blocks.preds b, t.Placed y → t.Above w y) → t.Above w p
  calm : ∀ b p d, t.find? b = some p → b ≠ entryBlock → t.Above d p → d ≠ p →
    blocks.Dominates d b → blocks.Dominates d p
  covers : ∀ b d, t.Placed b → blocks.Dominates d b → t.Above d b

/-- `b` is put below `q`, where the ways up from its predecessors meet. -/
structure Moves (blocks : Blocks) (order : List BlockId) (t : Parents) (b q : BlockId)
    (t' : Parents) : Prop where
  find : ∀ x, t'.find? x = if x = b then some q else t.find? x
  listed : b ∈ order
  ne : b ≠ entryBlock
  feeder : ∃ y ∈ blocks.preds b, t.Placed y ∧ order.idxOf y < order.idxOf b
  target : t.Placed q
  meets : ∀ d, t.Above d q ↔ ∀ y ∈ blocks.preds b, t.Placed y → t.Above d y

/-- What dominates a block dominates all that is above it and below what dominates it. -/
theorem Midway.dominates_above (hm : Midway blocks order m t) (h : t.Above c x)
    (hd : t.Above d c) (hne : d ≠ c) (hdom : blocks.Dominates d x) : blocks.Dominates d c := by
  have ht := hm.toRising
  induction h with
  | refl => exact hdom
  | @up x p hp hcp ih =>
    by_cases hx : x = entryBlock
    · rw [hx, ht.entry] at hp
      exact ih (Option.some.inj hp ▸ hx ▸ hdom)
    · have hdp : d ≠ p := by
        rintro rfl
        have h₁ := hd.lt ht hne
        have h₂ := hcp.le ht
        omega
      exact ih (hm.calm x p d hp hx (hd.trans hcp) hdp hdom)

namespace Moves

theorem find_ne (hv : Moves blocks order t b q t') (hx : x ≠ b) : t'.find? x = t.find? x := by
  rw [hv.find, if_neg hx]

theorem find_self (hv : Moves blocks order t b q t') : t'.find? b = some q := by
  rw [hv.find, if_pos rfl]

theorem placed_iff (hv : Moves blocks order t b q t') : t'.Placed x ↔ x = b ∨ t.Placed x := by
  by_cases hx : x = b
  · simp [hx, Placed, hv.find_self]
  · simp [hx, Placed, hv.find_ne hx]

section Within

variable (hv : Moves blocks order t b q t') (hm : Midway blocks order (order.idxOf b) t)
include hv hm

theorem idxOf_lt : order.idxOf q < order.idxOf b := by
  obtain ⟨y, hy, hplaced, hlt⟩ := hv.feeder
  have hle := ((hv.meets q).mp .refl y hy hplaced).le hm.toRising
  omega

theorem rises (hp : t.find? b = some p) : t.Above q p :=
  hm.lowest b p q hp hv.ne ((hv.meets q).mp .refl)

theorem above_before (hx : order.idxOf x < order.idxOf b) : t.Above d x → t'.Above d x := by
  intro h
  induction h with
  | refl => exact .refl
  | @up x p hp hdp ih =>
    have hxb : x ≠ b := by
      rintro rfl
      omega
    refine .up ((hv.find_ne hxb).trans hp) (ih ?_)
    by_cases he : x = entryBlock
    · rw [he, hm.entry] at hp
      rwa [← Option.some.inj hp, ← he]
    · have hlt := (hm.parent x p hp he).1
      omega

theorem above_of_after (hx : t.Placed x) (h : t'.Above d x) : t.Above d x := by
  induction h with
  | refl => exact .refl
  | @up x p hp hdp ih =>
    by_cases hxb : x = b
    · subst hxb
      obtain rfl := Option.some.inj (hv.find_self.symm.trans hp)
      obtain ⟨p', hp'⟩ := hx
      exact .up hp' ((ih hv.target).trans (hv.rises hm hp'))
    · rw [hv.find_ne hxb] at hp
      have hplaced : t.Placed p := by
        have hap : t.Above p x := .up hp .refl
        exact hap.placed hm.toRising hx
      exact .up hp (ih hplaced)

theorem above_from (hd : order.idxOf b ≤ order.idxOf d) (h : t.Above d x) : t'.Above d x := by
  induction h with
  | refl => exact .refl
  | @up x p hp hdp ih =>
    have hxb : x ≠ b := by
      rintro rfl
      have h₁ := (hm.parent x p hp hv.ne).1
      have h₂ := hdp.le hm.toRising
      omega
    exact .up ((hv.find_ne hxb).trans hp) ih

/-- What is no longer above a block was above `b`, on the way from there. -/
theorem above_or_cut (h : t.Above d x) :
    t'.Above d x ∨ t.Above b x ∧ t.Above d b ∧ d ≠ b ∧ ¬ t.Above d q := by
  induction h with
  | refl => exact .inl .refl
  | @up x p hp hdp ih =>
    rcases ih with ih | ⟨hbp, hcut⟩
    · by_cases hxb : x = b
      · subst hxb
        have hdx : d ≠ x := by
          rintro rfl
          have h₁ := (hm.parent d p hp hv.ne).1
          have h₂ := hdp.le hm.toRising
          omega
        by_cases hdq : t.Above d q
        · exact .inl (.up hv.find_self (hv.above_before hm (hv.idxOf_lt hm) hdq))
        · exact .inr ⟨.refl, .up hp hdp, hdx, hdq⟩
      · exact .inl (.up ((hv.find_ne hxb).trans hp) ih)
    · exact .inr ⟨.up hp hbp, hcut⟩

theorem above_target (hb : t.Above b x) (hw : order.idxOf w < order.idxOf b)
    (h : t'.Above w x) : t'.Above w q := by
  have ht := hm.toRising
  induction hb with
  | refl =>
    obtain ⟨p, hp, hwp⟩ := h.parent (by rintro rfl; omega)
    rwa [Option.some.inj (hv.find_self.symm.trans hp)]
  | @up x p hp hbp ih =>
    have hle := (Above.up hp hbp).le ht
    obtain ⟨p', hp', hwp⟩ := h.parent (by rintro rfl; omega)
    by_cases hxb : x = b
    · subst hxb
      rwa [Option.some.inj (hv.find_self.symm.trans hp')]
    · rw [hv.find_ne hxb, hp] at hp'
      exact ih (Option.some.inj hp' ▸ hwp)

/-- What dominates `b` is above its new parent. -/
theorem above_of_dominates (hw : blocks.Wired) (h : blocks.StrictlyDominates d b) : t.Above d q :=
  (hv.meets d).mpr fun y hy hplaced =>
    hm.covers y d hplaced (h.dominates_pred ((hw.pred y b).mp hy))

theorem rising : Rising order t' := by
  refine ⟨(hv.find_ne hv.ne.symm).trans hm.entry, fun x hx => ?_, fun x p hp hx => ?_⟩
  · rcases hv.placed_iff.mp hx with rfl | hx
    · exact hv.listed
    · exact hm.listed x hx
  · by_cases hxb : x = b
    · subst hxb
      obtain rfl := Option.some.inj (hv.find_self.symm.trans hp)
      exact ⟨hv.idxOf_lt hm, hv.placed_iff.mpr (.inr hv.target)⟩
    · rw [hv.find_ne hxb] at hp
      obtain ⟨hlt, hplaced⟩ := hm.parent x p hp hx
      exact ⟨hlt, hv.placed_iff.mpr (.inr hplaced)⟩

theorem placed_of_before (hx : t'.Placed x) (hlt : order.idxOf x < order.idxOf b) : t.Placed x := by
  refine (hv.placed_iff.mp hx).resolve_left ?_
  rintro rfl
  omega

theorem done_after (ho : blocks.Ordered order) (hp : t'.find? x = some p)
    (hy : y ∈ blocks.preds x) (hplaced : t'.Placed y) (hlt : order.idxOf y < order.idxOf x)
    (hxm : order.idxOf x < order.idxOf b + 1) : t'.Above p y := by
  have hyp := hv.placed_of_before hm hplaced (by omega)
  refine hv.above_before hm (by omega) ?_
  by_cases hxb : x = b
  · subst hxb
    obtain rfl := Option.some.inj (hv.find_self.symm.trans hp)
    exact (hv.meets _).mp .refl y hy hyp
  · have hne : order.idxOf x ≠ order.idxOf b := fun h =>
      hxb (ho.eq_of_idxOf ((hv.rising hm).listed x ⟨p, hp⟩) h)
    rw [hv.find_ne hxb] at hp
    exact hm.done x p y hp hy hyp hlt (by omega)

theorem ahead_after (hp : t'.find? x = some p) (hy : y ∈ blocks.preds x) (hplaced : t'.Placed y)
    (hlt : order.idxOf y < order.idxOf x) (hxm : order.idxOf b + 1 ≤ order.idxOf x)
    (hcp : t'.Above c p) (hcm : order.idxOf b + 1 ≤ order.idxOf c) : t'.Above c y := by
  have hxb : x ≠ b := by
    rintro rfl
    omega
  rw [hv.find_ne hxb] at hp
  have hxp : t.Placed x := ⟨p, hp⟩
  have hyp : t.Placed y := by
    rcases hv.placed_iff.mp hplaced with rfl | hyp
    · exact hm.lower x y hxp hv.listed (by omega)
    · exact hyp
  have hpp : t.Placed p := (Above.up hp .refl).placed hm.toRising hxp
  exact hv.above_from hm (by omega) (hm.ahead x p y c hp hy hyp hlt (by omega)
    (hv.above_of_after hm hpp hcp) (by omega))

theorem lowest_after (ho : blocks.Ordered order) (hp : t'.find? x = some p) (hx : x ≠ entryBlock)
    (hall : ∀ y ∈ blocks.preds x, t'.Placed y → t'.Above w y) : t'.Above w p := by
  have hall' : ∀ y ∈ blocks.preds x, t.Placed y → t.Above w y := fun y hy hplaced =>
    hv.above_of_after hm hplaced (hall y hy (hv.placed_iff.mpr (.inr hplaced)))
  by_cases hxb : x = b
  · subst hxb
    obtain rfl := Option.some.inj (hv.find_self.symm.trans hp)
    exact hv.above_before hm (hv.idxOf_lt hm) ((hv.meets w).mpr hall')
  · rw [hv.find_ne hxb] at hp
    have hxp : t.Placed x := ⟨p, hp⟩
    rcases hv.above_or_cut hm (hm.lowest x p w hp hx hall') with h | ⟨hbp, hwb, hwne, hcut⟩
    · exact h
    -- `b` is above the feeder of `x` too, so that has lost `w` as well
    · obtain ⟨y, hy, hyo, hyx⟩ := ho.feeder x (hm.listed x hxp) hx
      have hyp := hm.lower x y hxp hyo (by omega)
      have hbx : order.idxOf b ≤ order.idxOf x := (Above.up hp hbp).le hm.toRising
      have hby := hm.ahead x p y b hp hy hyp hyx hbx hbp (Nat.le_refl _)
      have hwy := hall y hy (hv.placed_iff.mpr (.inr hyp))
      have hwq := hv.above_target hm hby (hwb.lt hm.toRising hwne) hwy
      exact absurd (hv.above_of_after hm hv.target hwq) hcut

theorem calm_after (hw : blocks.Wired) (hp : t'.find? x = some p) (hx : x ≠ entryBlock)
    (hdp : t'.Above d p) (hne : d ≠ p) (hdom : blocks.Dominates d x) : blocks.Dominates d p := by
  by_cases hxb : x = b
  · subst hxb
    obtain rfl := Option.some.inj (hv.find_self.symm.trans hp)
    have hdq := hv.above_of_after hm hv.target hdp
    obtain ⟨y, hy, hyp, -⟩ := hv.feeder
    have hdx : d ≠ x := by
      rintro rfl
      have h₁ := hdq.le hm.toRising
      have h₂ := hv.idxOf_lt hm
      omega
    have hdy := Blocks.StrictlyDominates.dominates_pred ⟨hdx, hdom⟩ ((hw.pred y x).mp hy)
    exact hm.dominates_above ((hv.meets _).mp .refl y hy hyp) hdq hne hdy
  · rw [hv.find_ne hxb] at hp
    have hpp : t.Placed p := (Above.up hp .refl).placed hm.toRising ⟨p, hp⟩
    exact hm.calm x p d hp hx (hv.above_of_after hm hpp hdp) hne hdom

theorem covers_after (hw : blocks.Wired) (hx : t'.Placed x) (hdom : blocks.Dominates d x) :
    t'.Above d x := by
  rcases hv.placed_iff.mp hx with rfl | hx
  · by_cases hd : d = x
    · rw [hd]
      exact .refl
    · have hdq := hv.above_of_dominates hm hw ⟨hd, hdom⟩
      exact .up hv.find_self (hv.above_before hm (hv.idxOf_lt hm) hdq)
  · rcases hv.above_or_cut hm (hm.covers x d hx hdom) with h | ⟨hbx, hdb, hne, hcut⟩
    · exact h
    · have hdom' := hm.dominates_above hbx hdb hne hdom
      exact absurd (hv.above_of_dominates hm hw ⟨hne, hdom'⟩) hcut

theorem midway (hw : blocks.Wired) (ho : blocks.Ordered order) :
    Midway blocks order (order.idxOf b + 1) t' := by
  have hplaced : ∀ c ∈ order, order.idxOf c ≤ order.idxOf b → t'.Placed c := by
    intro c hc hle
    rcases Nat.lt_or_ge (order.idxOf c) (order.idxOf b) with hlt | hge
    · exact hv.placed_iff.mpr (.inr (hm.placed c hc hlt))
    · exact hv.placed_iff.mpr (.inl (ho.eq_of_idxOf hc (by omega)))
  refine ⟨hv.rising hm, fun x hx hlt => hplaced x hx (by omega), fun x c hx hc hle => ?_,
    fun x p y hp hy hyp hlt => hv.done_after hm ho hp hy hyp hlt,
    fun x p y c hp hy hyp hlt => hv.ahead_after hm hp hy hyp hlt,
    fun x p w hp hx => hv.lowest_after hm ho hp hx,
    fun x p d hp hx => hv.calm_after hm hw hp hx, fun x d hx => hv.covers_after hm hw hx⟩
  rcases hv.placed_iff.mp hx with rfl | hx
  · exact hplaced c hc hle
  · exact hv.placed_iff.mpr (.inr (hm.lower x c hx hc hle))

end Within

end Moves

/-- How far all blocks together can still move up. -/
def rank (order : List BlockId) (t : Parents) : Nat :=
  (order.map fun b => (t.find? b).elim order.length order.idxOf).sum

theorem rank_le (order : List BlockId) (t : Parents) :
    rank order t ≤ order.length * order.length := by
  have hle : ∀ n ∈ order.map fun b => (t.find? b).elim order.length order.idxOf,
      n ≤ order.length := by
    intro n hn
    obtain ⟨b, -, rfl⟩ := List.mem_map.mp hn
    cases t.find? b with
    | none => exact Nat.le_refl _
    | some p => exact List.idxOf_le_length
  simpa [rank] using List.sum_le_card_nsmul _ _ hle

theorem Moves.rank_lt (hv : Moves blocks order t b q t')
    (hm : Midway blocks order (order.idxOf b) t) (hne : t.find? b ≠ some q) :
    rank order t' < rank order t := by
  have hself : order.idxOf q < (t.find? b).elim order.length order.idxOf := by
    cases hp : t.find? b with
    | none => exact List.idxOf_lt_length_iff.mpr (hm.listed q hv.target)
    | some p =>
      refine (hv.rises hm hp).lt hm.toRising ?_
      rintro rfl
      exact hne hp
  refine List.sum_lt_sum _ _ (fun x _ => ?_) ⟨b, hv.listed, by simpa [hv.find_self] using hself⟩
  by_cases hx : x = b
  · rw [hx, hv.find_self]
    exact Nat.le_of_lt hself
  · rw [hv.find_ne hx]

theorem visit_ok (hm : Midway blocks order (order.idxOf b) t) (ho : blocks.Ordered order)
    (hb : b ∈ order) (hne : b ≠ entryBlock) (changed : Bool) :
    ∃ q s, visit blocks order ⟨t, changed⟩ b = .ok s ∧ Moves blocks order t b q s.parents ∧
      (s = ⟨t, changed⟩ ∨ s.changed = true ∧ rank order s.parents < rank order t) := by
  obtain ⟨y, hy, hyo, hlt⟩ := ho.feeder b hb hne
  have hyp := hm.placed y hyo hlt
  obtain ⟨r, hr, hnone, hsome⟩ :=
    confluence_ok hm.toRising ho.idxOf_entry (blocks.preds b)
  cases r with
  | none => exact absurd hyp (hnone rfl y hy)
  | some q =>
    obtain ⟨hq, hmeets⟩ := hsome q rfl
    by_cases hp : t.find? b = some q
    · have hfind : ∀ x, t.find? x = if x = b then some q else t.find? x := by
        intro x
        split
        · rename_i hx
          rw [hx, hp]
        · rfl
      refine ⟨q, ⟨t, changed⟩, ?_, ⟨hfind, hb, hne, ⟨y, hy, hyp, hlt⟩, hq, hmeets⟩, .inl rfl⟩
      simp [visit, hr, hp]
    · have hv : Moves blocks order t b q (t.set b (some q)) :=
        ⟨fun x => SideTable.find?_set t b x q, hb, hne, ⟨y, hy, hyp, hlt⟩, hq, hmeets⟩
      refine ⟨q, ⟨t.set b (some q), true⟩, ?_, hv, .inr ⟨rfl, hv.rank_lt hm hp⟩⟩
      simp [visit, hr, hp]

/-- No visit moves anything. -/
def Settled (blocks : Blocks) (order : List BlockId) (t : Parents) : Prop :=
  ∀ b ∈ order, b ≠ entryBlock → ∃ q, Moves blocks order t b q t

theorem visits_ok {done rest : List BlockId} (hm : Midway blocks order done.length t)
    (hw : blocks.Wired) (ho : blocks.Ordered order) (horder : order = done ++ rest)
    (hrest : entryBlock ∉ rest) (changed : Bool) :
    ∃ s, rest.foldlM (visit blocks order) ⟨t, changed⟩ = .ok s ∧
      Midway blocks order order.length s.parents ∧ rank order s.parents ≤ rank order t ∧
      (s.changed = true → changed = true ∨ rank order s.parents < rank order t) ∧
      (s.changed = false → changed = false ∧ s.parents = t ∧
        ∀ b ∈ rest, ∃ q, Moves blocks order t b q t) := by
  induction rest generalizing done t changed with
  | nil =>
    rw [List.append_nil] at horder
    exact ⟨⟨t, changed⟩, rfl, horder ▸ hm, Nat.le_refl _, .inl, fun h => ⟨h, rfl, by simp⟩⟩
  | cons b rest ih =>
    have hb : b ∈ order := by simp [horder]
    have hne : b ≠ entryBlock := fun h => hrest (by simp [h])
    have hpos : order.idxOf b = done.length := by
      have hnd := ho.nodup
      rw [horder] at hnd ⊢
      have hnot : b ∉ done := fun h => (List.nodup_append.mp hnd).2.2 b h b (by simp) rfl
      rw [List.idxOf_append_of_notMem hnot, List.idxOf_cons_self, Nat.add_zero]
    obtain ⟨q, s, hs, hv, hcase⟩ := visit_ok (hpos ▸ hm) ho hb hne changed
    have hnext : Midway blocks order (done ++ [b]).length s.parents := by
      rw [List.length_append, List.length_singleton, ← hpos]
      exact hv.midway (hpos ▸ hm) hw ho
    obtain ⟨s', hs', hmid, hle, hchanged, hsame⟩ := ih hnext (by simp [horder])
      (fun h => hrest (List.mem_cons_of_mem b h)) s.changed
    refine ⟨s', by rw [List.foldlM_cons, hs]; exact hs', hmid, ?_, fun h => ?_, fun h => ?_⟩
    · rcases hcase with rfl | ⟨-, hlt⟩
      · exact hle
      · omega
    · rcases hcase with rfl | ⟨-, hlt⟩
      · exact hchanged h
      · exact .inr (by omega)
    · rcases hcase with rfl | ⟨htrue, hlt⟩
      · obtain ⟨hch, heq, hall⟩ := hsame h
        exact ⟨hch, heq, List.forall_mem_cons.mpr ⟨⟨q, hv⟩, hall⟩⟩
      · exact absurd htrue (by simp [(hsame h).1])

theorem Midway.restart (hm : Midway blocks order order.length t) :
    Midway blocks order 1 t := by
  have hall : ∀ b ∈ order, t.Placed b := fun b hb =>
    hm.placed b hb (List.idxOf_lt_length_iff.mpr hb)
  refine ⟨hm.toRising, fun b hb _ => hall b hb, hm.lower, fun b p y hp hy hplaced hlt h1 => ?_,
    fun b p y c hp hy hplaced hlt _ hc _ => ?_, hm.lowest, hm.calm, hm.covers⟩
  · omega
  · have hb := List.idxOf_lt_length_iff.mpr (hm.listed b ⟨p, hp⟩)
    exact hc.trans (hm.done b p y hp hy hplaced hlt hb)

theorem sweep_ok (hm : Midway blocks order 1 t) (hw : blocks.Wired) (ho : blocks.Ordered order) :
    ∃ s, t.sweep blocks order = .ok s ∧ Midway blocks order order.length s.parents ∧
      (s.changed = true → rank order s.parents < rank order t) ∧
      (s.changed = false → Settled blocks order s.parents) := by
  obtain ⟨rest, hrest⟩ := ho.entry
  have hnd := ho.nodup
  rw [hrest, List.nodup_cons] at hnd
  have hfirst : Midway blocks order [entryBlock].length t := hm
  obtain ⟨s, hs, hmid, -, hchanged, hsame⟩ := visits_ok hfirst hw ho hrest hnd.1 false
  refine ⟨s, by simpa [sweep, hrest] using hs, hmid, fun h => by simpa using hchanged h,
    fun h b hb hne => ?_⟩
  obtain ⟨-, heq, hall⟩ := hsame h
  rw [hrest] at hb
  rw [heq]
  exact hall b ((List.mem_cons.mp hb).resolve_left hne)

/-- The sweeps come to an end. -/
theorem settle_ok {rounds : Nat} (hm : Midway blocks order 1 t) (hw : blocks.Wired)
    (ho : blocks.Ordered order) (hrank : rank order t < rounds) :
    ∃ t', settle blocks order rounds t = .ok t' ∧ Midway blocks order order.length t' ∧
      Settled blocks order t' := by
  induction rounds generalizing t with
  | zero => omega
  | succ rounds ih =>
    obtain ⟨s, hs, hmid, hchanged, hsettled⟩ := sweep_ok hm hw ho
    cases hc : s.changed with
    | false => exact ⟨s.parents, by simp [settle, hs, hc], hmid, hsettled hc⟩
    | true =>
      have hlt := hchanged hc
      obtain ⟨t', ht', hmid', hsettled'⟩ := ih (hmid.restart) (by omega)
      exact ⟨t', by simpa [settle, hs, hc] using ht', hmid', hsettled'⟩

theorem start_find? (blocks : Blocks) (b : BlockId) :
    (start blocks).find? b = if b = entryBlock then some entryBlock else none := by
  rw [start, SideTable.find?_set]
  split
  · rfl
  · simp only [SideTable.find?, SideTable.get?, SideTable.ofSize, Array.getElem?_replicate]
    split <;> rfl

theorem midway_start (ho : blocks.Ordered order) : Midway blocks order 1 (start blocks) := by
  have hplaced : ∀ b, (start blocks).Placed b ↔ b = entryBlock := by
    intro b
    by_cases hb : b = entryBlock <;> simp [Placed, start_find?, hb]
  have hparent : ∀ {b p}, (start blocks).find? b = some p → b = entryBlock :=
    fun hp => (hplaced _).mp ⟨_, hp⟩
  have hentry : entryBlock ∈ order := by
    obtain ⟨rest, rfl⟩ := ho.entry
    simp
  have hzero := ho.idxOf_entry
  have honly : ∀ c ∈ order, order.idxOf c < 1 → c = entryBlock := fun c hc hlt =>
    ho.eq_of_idxOf hc (by omega)
  refine ⟨⟨by simp [start_find?], fun b hb => (hplaced b).mp hb ▸ hentry,
      fun b p hp hb => absurd (hparent hp) hb⟩, fun b hb hlt => (hplaced b).mpr (honly b hb hlt),
    fun b c hb hc hle => ?_, fun b p y hp _ _ hlt _ => ?_, fun b p y c hp _ _ hlt _ _ _ => ?_,
    fun b p w hp hb => absurd (hparent hp) hb, fun b p d hp hb => absurd (hparent hp) hb,
    fun b d hb hdom => ?_⟩
  · rw [(hplaced b).mp hb, hzero] at hle
    exact (hplaced c).mpr (honly c hc (by omega))
  · rw [hparent hp, hzero] at hlt
    omega
  · rw [hparent hp, hzero] at hlt
    omega
  · rw [(hplaced b).mp hb] at hdom ⊢
    by_cases hd : d = entryBlock
    · rw [hd]
      exact .refl
    · exact absurd ⟨hd, hdom⟩ Blocks.not_strictlyDominates_entry

/-- The reachable blocks have parents, and above each of them is what dominates it. -/
structure Exact (blocks : Blocks) (t : Parents) : Prop where
  rising : Rising blocks.reversePostorder t
  placed : ∀ b, t.Placed b ↔ blocks.Reachable b
  above : ∀ a b, blocks.Reachable b → (t.Above a b ↔ blocks.Dominates a b)

theorem ofBlocks_ok (hw : blocks.Wired) : ∃ t, ofBlocks blocks = .ok t ∧ Exact blocks t := by
  have ho := hw.ordered
  have hle := rank_le blocks.reversePostorder (start blocks)
  obtain ⟨t, ht, hm, hsettled⟩ := settle_ok (midway_start ho) hw ho (Nat.lt_succ_of_le hle)
  have hplaced : ∀ b, t.Placed b ↔ blocks.Reachable b := fun b =>
    ⟨fun hb => (ho.mem b).mp (hm.listed b hb), fun hr => hm.placed b ((ho.mem b).mpr hr)
      (List.idxOf_lt_length_iff.mpr ((ho.mem b).mpr hr))⟩
  refine ⟨t, ht, hm.toRising, hplaced, fun a b hr => ⟨fun hab hreach => ?_,
    hm.covers b a ((hplaced b).mpr hr)⟩⟩
  -- along a way that avoids `a`, no block has `a` above it
  induction hreach with
  | entry hne => exact hne (hab.entry hm.toRising rfl).symm
  | @step y c hy hc hne ih =>
    have hce : c ≠ entryBlock := by
      rintro rfl
      exact hne (hab.entry hm.toRising rfl).symm
    obtain ⟨q, hv⟩ := hsettled c ((ho.mem c).mpr hr) hce
    obtain ⟨p, hp, hap⟩ := hab.parent fun h => hne h.symm
    obtain rfl := Option.some.inj (hv.find_self.symm.trans hp)
    have hyr := hy.reachable
    exact ih hyr ((hv.meets a).mp hap y ((hw.pred y c).mpr hc) ((hplaced y).mpr hyr))

end ShaderSSA.Parents
