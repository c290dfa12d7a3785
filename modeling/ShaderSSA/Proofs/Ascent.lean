import ShaderSSA.Proofs.Success
import ShaderSSA.Proofs.Traversal

/-! Ways up in a table of parents. Parents come earlier in the order, so every way up ends at the
entry, and any two of them meet. -/

namespace ShaderSSA

/-- An order of the reachable blocks in which the entry is first and every other block comes after
one with an edge to it. -/
structure Blocks.Ordered (blocks : Blocks) (order : List BlockId) : Prop where
  entry : ∃ rest, order = entryBlock :: rest
  nodup : order.Nodup
  mem : ∀ b, b ∈ order ↔ blocks.Reachable b
  feeder : ∀ b ∈ order, b ≠ entryBlock →
    ∃ y ∈ blocks.preds b, y ∈ order ∧ order.idxOf y < order.idxOf b

namespace Blocks

variable {blocks : Blocks} {order : List BlockId} {b c : BlockId}

theorem Ordered.idxOf_entry (ho : blocks.Ordered order) : order.idxOf entryBlock = 0 := by
  obtain ⟨rest, rfl⟩ := ho.entry
  simp

theorem Ordered.eq_of_idxOf (_ : blocks.Ordered order) (hb : b ∈ order)
    (h : order.idxOf b = order.idxOf c) : b = c := List.idxOf_inj hb |>.mp h

theorem Wired.ordered (hw : blocks.Wired) : blocks.Ordered blocks.reversePostorder := by
  have hmem : ∀ b, b ∈ blocks.reversePostorder ↔ blocks.Reachable b :=
    fun b => mem_reversePostorder hw.entry hw.target
  have hnd := nodup_reversePostorder blocks
  have hfeeder : ∀ b ∈ blocks.reversePostorder, b ≠ entryBlock →
      ∃ y ∈ blocks.preds b, y ∈ blocks.reversePostorder ∧
        blocks.reversePostorder.idxOf y < blocks.reversePostorder.idxOf b := by
    intro b hb hne
    obtain ⟨first, rest, hsplit⟩ := List.append_of_mem hb
    obtain ⟨y, hy, hedge⟩ := exists_pred_before hw.entry hw.target hsplit hne
    refine ⟨y, (hw.pred y b).mpr hedge, by simp [hsplit, hy], ?_⟩
    rw [hsplit] at hnd ⊢
    have hb' : b ∉ first := fun h => (List.nodup_append.mp hnd).2.2 b h b (by simp) rfl
    rw [List.idxOf_append_of_mem hy, List.idxOf_append_of_notMem hb', List.idxOf_cons_self]
    have hlt := List.idxOf_lt_length_iff.mpr hy
    omega
  refine ⟨?_, hnd, hmem, hfeeder⟩
  have hentry := (hmem entryBlock).mpr (.entry (by simp))
  cases horder : blocks.reversePostorder with
  | nil => simp [horder] at hentry
  | cons b rest =>
    by_cases hb : b = entryBlock
    · exact ⟨rest, by rw [hb]⟩
    · obtain ⟨y, -, -, hlt⟩ := hfeeder b (by simp [horder]) hb
      simp [horder] at hlt

end Blocks

namespace Parents

variable {blocks : Blocks} {order : List BlockId} {t t' : Parents} {a b c d p q : BlockId}

/-- The block has a parent. -/
def Placed (t : Parents) (b : BlockId) : Prop := ∃ p, t.find? b = some p

/-- The way up from `b` leads to `a`. -/
inductive Above (t : Parents) (a : BlockId) : BlockId → Prop
  | refl : Above t a a
  | up {b p : BlockId} : t.find? b = some p → Above t a p → Above t a b

/-- Every way up ends at the entry. -/
structure Rising (order : List BlockId) (t : Parents) : Prop where
  entry : t.find? entryBlock = some entryBlock
  listed : ∀ b, t.Placed b → b ∈ order
  parent : ∀ b p, t.find? b = some p → b ≠ entryBlock →
    order.idxOf p < order.idxOf b ∧ t.Placed p

namespace Above

theorem trans (h : t.Above a b) (h' : t.Above b c) : t.Above a c := by
  induction h' with
  | refl => exact h
  | up hc _ ih => exact .up hc ih

theorem parent (h : t.Above a b) (hne : a ≠ b) : ∃ p, t.find? b = some p ∧ t.Above a p := by
  cases h with
  | refl => exact absurd rfl hne
  | up hp h => exact ⟨_, hp, h⟩

theorem entry (h : t.Above a b) (ht : Rising order t) (hb : b = entryBlock) : a = entryBlock := by
  induction h with
  | refl => exact hb
  | up hp _ ih =>
    rw [hb, ht.entry] at hp
    exact ih (Option.some.inj hp).symm

theorem le (h : t.Above a b) (ht : Rising order t) : order.idxOf a ≤ order.idxOf b := by
  induction h with
  | refl => exact Nat.le_refl _
  | @up b p hp _ ih =>
    by_cases hb : b = entryBlock
    · rw [hb, ht.entry] at hp
      rw [hb, Option.some.inj hp]
      exact ih
    · have hlt := (ht.parent b p hp hb).1
      omega

theorem lt (h : t.Above a b) (ht : Rising order t) (hne : a ≠ b) :
    order.idxOf a < order.idxOf b := by
  obtain ⟨p, hp, hap⟩ := h.parent hne
  have hb : b ≠ entryBlock := fun hb => hne ((h.entry ht hb).trans hb.symm)
  have hlt := (ht.parent b p hp hb).1
  have hle := hap.le ht
  omega

theorem placed (h : t.Above a b) (ht : Rising order t) (hb : t.Placed b) : t.Placed a := by
  induction h with
  | refl => exact hb
  | @up b p hp _ ih =>
    by_cases he : b = entryBlock
    · rw [he, ht.entry] at hp
      exact ih (Option.some.inj hp ▸ ⟨_, ht.entry⟩)
    · exact ih (ht.parent b p hp he).2

end Above

/-- The step up from the later of two blocks leaves out only that block, which is not above the
other one. -/
theorem Rising.climb (ht : Rising order t) (he : order.idxOf entryBlock = 0) (ha : t.Placed a)
    (hlt : order.idxOf b < order.idxOf a) :
    ∃ p, t.find? a = some p ∧ t.Placed p ∧ order.idxOf p < order.idxOf a ∧
      ∀ d, t.Above d p ∧ t.Above d b ↔ t.Above d a ∧ t.Above d b := by
  obtain ⟨p, hp⟩ := ha
  have hne : a ≠ entryBlock := by
    rintro rfl
    omega
  obtain ⟨hpa, hplaced⟩ := ht.parent a p hp hne
  refine ⟨p, hp, hplaced, hpa, fun d => ⟨fun h => ⟨.up hp h.1, h.2⟩, fun h => ⟨?_, h.2⟩⟩⟩
  have hda : d ≠ a := by
    rintro rfl
    have hle := h.2.le ht
    omega
  obtain ⟨p', hp', hd⟩ := h.1.parent hda
  rwa [Option.some.inj (hp.symm.trans hp')]

/-- Two ways up meet, and above that they are one. -/
theorem meet_ok {fuel : Nat} (ht : Rising order t) (he : order.idxOf entryBlock = 0)
    (ha : t.Placed a) (hb : t.Placed b) (hfuel : order.idxOf a + order.idxOf b < fuel) :
    ∃ c, t.meet order fuel a b = .ok c ∧ t.Placed c ∧
      ∀ d, t.Above d c ↔ t.Above d a ∧ t.Above d b := by
  induction fuel generalizing a b with
  | zero => omega
  | succ fuel ih =>
    unfold meet
    by_cases hab : a = b
    · subst hab
      exact ⟨a, by simp, ha, fun d => by simp⟩
    · rcases Nat.lt_trichotomy (order.idxOf a) (order.idxOf b) with hlt | heq | hlt
      · obtain ⟨p, hp, hplaced, hpb, hiff⟩ := ht.climb he hb hlt
        obtain ⟨c, hc, hcp, hd⟩ := ih ha hplaced (by omega)
        refine ⟨c, ?_, hcp, fun d => by rw [hd, and_comm, hiff, and_comm]⟩
        simpa [hab, hlt, Nat.lt_asymm hlt, hp, Checked.inBounds] using hc
      · exact absurd ((List.idxOf_inj (ht.listed a ha)).mp heq) hab
      · obtain ⟨p, hp, hplaced, hpa, hiff⟩ := ht.climb he ha hlt
        obtain ⟨c, hc, hcp, hd⟩ := ih hplaced hb (by omega)
        refine ⟨c, ?_, hcp, fun d => by rw [hd, hiff]⟩
        simpa [hab, hlt, hp, Checked.inBounds] using hc

/-- A predecessor that is placed leaves a block above which is what is above it and above what was
found before. -/
theorem join_ok {found : Option BlockId} (ht : Rising order t)
    (he : order.idxOf entryBlock = 0) (ha : t.Placed a)
    (hfound : ∀ q, found = some q → t.Placed q) :
    ∃ c, t.join order found a = .ok (some c) ∧ t.Placed c ∧
      ∀ d, t.Above d c ↔ (∀ q, found = some q → t.Above d q) ∧ t.Above d a := by
  obtain ⟨p, hp⟩ := ha
  have ha : t.Placed a := ⟨p, hp⟩
  cases found with
  | none => exact ⟨a, by simp [join, hp], ha, by simp⟩
  | some q =>
    have hq := hfound q rfl
    have hlt : order.idxOf a + order.idxOf q < 2 * order.length := by
      have h₁ := List.idxOf_lt_length_iff.mpr (ht.listed a ha)
      have h₂ := List.idxOf_lt_length_iff.mpr (ht.listed q hq)
      omega
    obtain ⟨c, hc, hcp, hd⟩ := meet_ok ht he ha hq hlt
    exact ⟨c, by simp [join, hp, hc], hcp, fun d => by simp [hd, and_comm]⟩

theorem joins_ok {found : Option BlockId} (ht : Rising order t)
    (he : order.idxOf entryBlock = 0) (preds : List BlockId)
    (hfound : ∀ q, found = some q → t.Placed q) :
    ∃ r, preds.foldlM (t.join order) found = .ok r ∧
      (r = none → found = none ∧ ∀ y ∈ preds, ¬ t.Placed y) ∧
      ∀ q, r = some q → t.Placed q ∧ ∀ d, t.Above d q ↔
        (∀ z, found = some z → t.Above d z) ∧ ∀ y ∈ preds, t.Placed y → t.Above d y := by
  induction preds generalizing found with
  | nil =>
    refine ⟨found, rfl, by simp, fun q hq => ⟨hfound q hq, fun d => ?_⟩⟩
    simp [hq]
  | cons p preds ih =>
    rw [List.foldlM_cons]
    by_cases hp : t.Placed p
    · obtain ⟨c, hc, hcp, hd⟩ := join_ok ht he hp hfound
      obtain ⟨r, hr, hnone, hsome⟩ := ih (fun q hq => Option.some.inj hq ▸ hcp)
      refine ⟨r, by rwa [hc, ok_bind], fun h => absurd (hnone h).1 (by simp), fun q hq => ?_⟩
      refine ⟨(hsome q hq).1, fun d => ?_⟩
      rw [(hsome q hq).2 d]
      simp [hd, hp, and_assoc]
    · have hnot : t.find? p = none := by
        rw [Option.eq_none_iff_forall_ne_some]
        exact fun q hq => hp ⟨q, hq⟩
      obtain ⟨r, hr, hnone, hsome⟩ := ih hfound
      refine ⟨r, by simpa [join, hnot] using hr, fun h => ?_, fun q hq => ?_⟩
      · exact ⟨(hnone h).1, List.forall_mem_cons.mpr ⟨hp, (hnone h).2⟩⟩
      · simpa [hp] using hsome q hq

/-- The ways up from the predecessors that are placed meet, if there are any. -/
theorem confluence_ok (ht : Rising order t) (he : order.idxOf entryBlock = 0)
    (preds : List BlockId) :
    ∃ r, t.confluence order preds = .ok r ∧ (r = none → ∀ y ∈ preds, ¬ t.Placed y) ∧
      ∀ q, r = some q → t.Placed q ∧
        ∀ d, t.Above d q ↔ ∀ y ∈ preds, t.Placed y → t.Above d y := by
  have hstart : ∀ q, none = some q → t.Placed q := by simp
  obtain ⟨r, hr, hnone, hsome⟩ := joins_ok ht he preds hstart
  exact ⟨r, hr, fun h => (hnone h).2, fun q hq => ⟨(hsome q hq).1, by simpa using (hsome q hq).2⟩⟩

end Parents

end ShaderSSA
