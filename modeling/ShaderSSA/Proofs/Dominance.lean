import Mathlib
import ShaderSSA.Postorder

/-! Reachability and dominance in the control flow. A block dominates another when every way from
the entry to the other leads through it, that is, when avoiding it cuts the other off. -/

namespace ShaderSSA.Blocks

/-- The blocks that the entry reaches on ways without a block of `avoid`. -/
inductive Reaches (blocks : Blocks) (avoid : BlockId → Prop) : BlockId → Prop
  | entry : ¬ avoid entryBlock → Reaches blocks avoid entryBlock
  | step {b c : BlockId} : Reaches blocks avoid b → c ∈ blocks.successors b → ¬ avoid c →
      Reaches blocks avoid c

def Reachable (blocks : Blocks) (b : BlockId) : Prop := blocks.Reaches (fun _ => False) b

def Dominates (blocks : Blocks) (a b : BlockId) : Prop := ¬ blocks.Reaches (· = a) b

def StrictlyDominates (blocks : Blocks) (a b : BlockId) : Prop := a ≠ b ∧ blocks.Dominates a b

variable {blocks blocks' : Blocks} {P Q : BlockId → Prop} {a b c : BlockId}

theorem Reaches.not_avoided (h : blocks.Reaches P b) : ¬ P b := by
  cases h with
  | entry h => exact h
  | step _ _ h => exact h

theorem Reaches.mono (h : blocks.Reaches P b) (hpq : ∀ x, Q x → P x) : blocks.Reaches Q b := by
  induction h with
  | entry h => exact .entry fun hq => h (hpq _ hq)
  | step _ hc hn ih => exact .step ih hc fun hq => hn (hpq _ hq)

theorem Reaches.congr (h : blocks.Reaches P b)
    (hs : ∀ x, blocks'.successors x = blocks.successors x) : blocks'.Reaches P b := by
  induction h with
  | entry h => exact .entry h
  | step _ hc hn ih => exact .step ih (by rwa [hs]) hn

theorem Reaches.reachable (h : blocks.Reaches P b) : blocks.Reachable b :=
  h.mono fun _ hx => hx.elim

theorem Reaches.through (h : blocks.Reaches P c) (a : BlockId) :
    blocks.Reaches P a ∨ blocks.Reaches (fun x => P x ∨ x = a) c := by
  induction h with
  | entry h =>
    by_cases ha : entryBlock = a
    · exact .inl (ha ▸ .entry h)
    · exact .inr (.entry (by simp [h, ha]))
  | @step b c hb hc hn ih =>
    rcases ih with ih | ih
    · exact .inl ih
    · by_cases ha : c = a
      · exact .inl (ha ▸ .step hb hc hn)
      · exact .inr (.step ih hc (by simp [hn, ha]))

/-- Of two blocks, one is met first. -/
theorem Reaches.first (h : blocks.Reachable c) (hab : a ≠ b) :
    blocks.Reaches (· = a) b ∨ blocks.Reaches (· = b) a ∨
      blocks.Reaches (fun x => x = a ∨ x = b) c := by
  have hstep : ∀ c, (∀ Q : BlockId → Prop, (∀ x, Q x → x = a ∨ x = b) → ¬ Q c →
      blocks.Reaches Q c) → blocks.Reaches (· = a) b ∨ blocks.Reaches (· = b) a ∨
      blocks.Reaches (fun x => x = a ∨ x = b) c := by
    intro c hc
    by_cases hca : c = a
    · exact .inr (.inl (hca ▸ hc (· = b) (fun x hx => .inr hx) (hca ▸ hab)))
    · by_cases hcb : c = b
      · exact .inl (hcb ▸ hc (· = a) (fun x hx => .inl hx) (hcb ▸ hab.symm))
      · exact .inr (.inr (hc _ (fun x hx => hx) (by simp [hca, hcb])))
  induction h with
  | entry _ => exact hstep _ fun Q _ hn => .entry hn
  | @step x y hx hy _ ih =>
    rcases ih with ih | ih | ih
    · exact .inl ih
    · exact .inr (.inl ih)
    · exact hstep y fun Q hq hn => .step (ih.mono hq) hy hn

theorem Dominates.refl (blocks : Blocks) (a : BlockId) : blocks.Dominates a a :=
  fun h => h.not_avoided rfl

theorem Dominates.congr (h : blocks.Dominates a b)
    (hs : ∀ x, blocks'.successors x = blocks.successors x) : blocks'.Dominates a b :=
  fun hr => h (hr.congr fun x => (hs x).symm)

theorem Dominates.reachable (h : blocks.Dominates a b) (hb : blocks.Reachable b) :
    blocks.Reachable a := by
  rcases Reaches.through hb a with ha | hr
  · exact ha
  · exact absurd (hr.mono fun x hx => .inr hx) h

theorem Dominates.trans (h : blocks.Dominates a b) (h' : blocks.Dominates b c) :
    blocks.Dominates a c := by
  intro hr
  rcases hr.through b with hb | hc
  · exact h hb
  · exact h' (hc.mono fun x hx => .inr hx)

theorem Dominates.antisymm (h : blocks.Dominates a b) (h' : blocks.Dominates b a)
    (ha : blocks.Reachable a) : a = b := by
  by_contra hab
  rcases Reaches.first ha hab with hr | hr | hr
  · exact h hr
  · exact h' hr
  · exact hr.not_avoided (.inl rfl)

/-- Of two blocks on every way to a third, one is on every way to the other. -/
theorem Dominates.total (h : blocks.Dominates a c) (h' : blocks.Dominates b c)
    (hc : blocks.Reachable c) : blocks.Dominates a b ∨ blocks.Dominates b a := by
  have hlast : (blocks.Reaches (· = b) a → blocks.Reaches (· = b) c) ∨
      (blocks.Reaches (· = a) b → blocks.Reaches (· = a) c) := by
    clear h h'
    induction hc with
    | entry _ =>
      by_cases hb : entryBlock = b
      · exact .inr fun hr => hb ▸ hr
      · exact .inl fun _ => .entry hb
    | @step x y _ hy _ ih =>
      by_cases hya : y = a
      · exact .inl fun hr => hya ▸ hr
      · by_cases hyb : y = b
        · exact .inr fun hr => hyb ▸ hr
        · exact ih.imp (fun hx hr => .step (hx hr) hy hyb) fun hx hr => .step (hx hr) hy hya
  rcases hlast with hl | hl
  · exact .inr fun hr => h' (hl hr)
  · exact .inl fun hr => h (hl hr)

theorem StrictlyDominates.trans (h : blocks.StrictlyDominates a b)
    (h' : blocks.StrictlyDominates b c) (hc : blocks.Reachable c) :
    blocks.StrictlyDominates a c := by
  refine ⟨?_, h.2.trans h'.2⟩
  rintro rfl
  exact h.1 (h.2.antisymm h'.2 hc)

theorem StrictlyDominates.congr (h : blocks.StrictlyDominates a b)
    (hs : ∀ x, blocks'.successors x = blocks.successors x) : blocks'.StrictlyDominates a b :=
  ⟨h.1, h.2.congr hs⟩

theorem StrictlyDominates.dominates_pred (h : blocks.StrictlyDominates a c)
    (hc : c ∈ blocks.successors b) : blocks.Dominates a b :=
  fun hr => h.2 (.step hr hc h.1.symm)

theorem entry_dominates : blocks.Dominates entryBlock b := by
  intro h
  induction h with
  | entry hnot => exact hnot rfl
  | step _ _ _ ih => exact ih

theorem not_strictlyDominates_entry : ¬ blocks.StrictlyDominates a entryBlock :=
  fun h => h.2 (.entry h.1.symm)

/-- The blocks on a way from the entry, which comes first, to the block that comes last. -/
inductive Path (blocks : Blocks) : List BlockId → BlockId → Prop
  | entry : Path blocks [entryBlock] entryBlock
  | step {l : List BlockId} {b c : BlockId} : Path blocks l b → c ∈ blocks.successors b →
      Path blocks (l ++ [c]) c

theorem reaches_iff_path : blocks.Reaches P b ↔ ∃ l, blocks.Path l b ∧ ∀ x ∈ l, ¬ P x := by
  constructor
  · intro h
    induction h with
    | entry hn => exact ⟨[entryBlock], .entry, by simpa using hn⟩
    | @step b c _ hc hn ih =>
      obtain ⟨l, hl, hall⟩ := ih
      refine ⟨l ++ [c], .step hl hc, fun x hx => ?_⟩
      rcases List.mem_append.mp hx with hx | hx
      · exact hall x hx
      · rwa [List.mem_singleton.mp hx]
  · rintro ⟨l, hl, hall⟩
    induction hl with
    | entry => exact .entry (hall entryBlock (by simp))
    | @step l b c _ hc ih =>
      exact .step (ih fun x hx => hall x (by simp [hx])) hc (hall c (by simp))

theorem dominates_iff_path : blocks.Dominates a b ↔ ∀ l, blocks.Path l b → a ∈ l := by
  rw [Dominates, reaches_iff_path]
  constructor
  · intro h l hl
    by_contra hal
    exact h ⟨l, hl, fun x hx hxa => hal (hxa ▸ hx)⟩
  · rintro h ⟨l, hl, hall⟩
    exact hall a (h l hl) rfl

/-- Edges lead to blocks and are listed at both ends. -/
structure Wired (blocks : Blocks) : Prop where
  entry : 0 < blocks.size
  target : ∀ b, ∀ c ∈ blocks.successors b, c.index < blocks.size
  pred : ∀ b c, b ∈ blocks.preds c ↔ c ∈ blocks.successors b

theorem Wired.index_lt (hw : blocks.Wired) (hr : blocks.Reachable b) : b.index < blocks.size := by
  cases hr with
  | entry _ => exact hw.entry
  | step _ hy _ => exact hw.target _ _ hy

def strictDominators (blocks : Blocks) (b : BlockId) : Set BlockId :=
  {a | blocks.Reachable b ∧ blocks.StrictlyDominates a b}

theorem Wired.finite_strictDominators (hw : blocks.Wired) (b : BlockId) :
    (blocks.strictDominators b).Finite := by
  refine (List.finite_toSet blocks.ids).subset fun a ⟨hr, ha⟩ => ?_
  exact (Arena.mem_ids _ _).mpr (hw.index_lt (ha.2.reachable hr))

theorem Wired.ncard_strictDominators_lt (hw : blocks.Wired) (hr : blocks.Reachable b)
    (h : blocks.StrictlyDominates a b) :
    (blocks.strictDominators a).ncard < (blocks.strictDominators b).ncard := by
  refine Set.ncard_lt_ncard ⟨fun c hc => ⟨hr, hc.2.trans h hr⟩, fun hsub => ?_⟩
    (hw.finite_strictDominators b)
  exact (hsub ⟨hr, h⟩).2.1 rfl

theorem Wired.ncard_strictDominators (hw : blocks.Wired) (hr : blocks.Reachable b)
    (h : blocks.StrictlyDominates a b)
    (hnear : ∀ c, blocks.StrictlyDominates c b → blocks.Dominates c a) :
    (blocks.strictDominators b).ncard = (blocks.strictDominators a).ncard + 1 := by
  have har := h.2.reachable hr
  have hset : blocks.strictDominators b = insert a (blocks.strictDominators a) := by
    ext c
    simp only [strictDominators, Set.mem_insert_iff, Set.mem_ofPred_eq, hr, har, true_and]
    refine ⟨fun hc => ?_, ?_⟩
    · by_cases hca : c = a
      · exact .inl hca
      · exact .inr ⟨hca, hnear c hc⟩
    · rintro (rfl | hc)
      · exact h
      · exact hc.trans h hr
  rw [hset, Set.ncard_insert_of_notMem (fun hself => hself.2.1 rfl)
    (hw.finite_strictDominators a)]

end ShaderSSA.Blocks
