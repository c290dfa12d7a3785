import ShaderSSA.Proofs.Tree

/-! The tour of the dominator tree, visit by visit. The blocks that are open when a block is entered
are those that strictly dominate it, and none that it dominates has been entered before. -/

namespace ShaderSSA

/-- The visits lead from where the blocks `anc` are open and `seen` have been entered to where these
are `anc'` and `seen'`. -/
inductive Blocks.Tours (blocks : Blocks) : List BlockId → List BlockId →
    List DominatorTree.Visit → List BlockId → List BlockId → Prop
  | nil {anc seen : List BlockId} : Tours blocks anc seen [] anc seen
  | enter {b : BlockId} {anc seen anc' seen' : List BlockId} {visits : List DominatorTree.Visit} :
      blocks.Reachable b → (∀ p, p ∈ anc ↔ blocks.StrictlyDominates p b) →
      (∀ c ∈ seen, ¬ blocks.Dominates b c) →
      Tours blocks (b :: anc) (b :: seen) visits anc' seen' →
      Tours blocks anc seen (.enter b :: visits) anc' seen'
  | leave {b : BlockId} {anc seen anc' seen' : List BlockId} {visits : List DominatorTree.Visit} :
      b ∉ anc → Tours blocks anc seen visits anc' seen' →
      Tours blocks (b :: anc) seen (.leave b :: visits) anc' seen'

namespace Blocks.Tours

variable {blocks : Blocks} {anc anc' anc'' seen seen' seen'' : List BlockId}
  {visits visits' : List DominatorTree.Visit}

theorem append (h : blocks.Tours anc seen visits anc' seen')
    (h' : blocks.Tours anc' seen' visits' anc'' seen'') :
    blocks.Tours anc seen (visits ++ visits') anc'' seen'' := by
  induction h with
  | nil => exact h'
  | enter hr habove hbelow _ ih => exact .enter hr habove hbelow (ih h')
  | leave hb _ ih => exact .leave hb (ih h')

theorem split (h : blocks.Tours anc seen (visits ++ visits') anc'' seen'') :
    ∃ anc' seen', blocks.Tours anc seen visits anc' seen' ∧
      blocks.Tours anc' seen' visits' anc'' seen'' := by
  induction visits generalizing anc seen with
  | nil => exact ⟨anc, seen, .nil, h⟩
  | cons v visits ih =>
    cases h with
    | enter hr habove hbelow h =>
      obtain ⟨anc', seen', hleft, hright⟩ := ih h
      exact ⟨anc', seen', .enter hr habove hbelow hleft, hright⟩
    | leave hb h =>
      obtain ⟨anc', seen', hleft, hright⟩ := ih h
      exact ⟨anc', seen', .leave hb hleft, hright⟩

end Blocks.Tours

namespace DominatorTree

variable {blocks : Blocks} {anc seen cs : List BlockId} {b c p : BlockId} {height : Nat}

theorem above_child (hw : blocks.Wired)
    (habove : ∀ p, p ∈ anc ↔ blocks.StrictlyDominates p b)
    (hc : (build blocks).parent? c = some b) : p ∈ b :: anc ↔ blocks.StrictlyDominates p c := by
  obtain ⟨hr, hbc, hnear⟩ := (parent?_eq_some_iff hw).mp hc
  rw [List.mem_cons, habove]
  constructor
  · rintro (rfl | hp)
    · exact hbc
    · exact hp.trans hbc hr
  · intro hp
    by_cases hpb : p = b
    · exact .inl hpb
    · exact .inr ⟨hpb, hnear p hp⟩

theorem tours_children {tour : BlockId → List Visit} (hw : blocks.Wired) (hnd : cs.Nodup)
    (hparent : ∀ c ∈ cs, (build blocks).parent? c = some b)
    (hunseen : ∀ c ∈ cs, ∀ x ∈ seen, ¬ blocks.Dominates c x)
    (htour : ∀ c ∈ cs, ∀ seen, (∀ x ∈ seen, ¬ blocks.Dominates c x) →
      ∃ seen', blocks.Tours anc seen (tour c) anc seen' ∧
        ∀ x, x ∈ seen' ↔ x ∈ seen ∨ blocks.Reachable x ∧ blocks.Dominates c x) :
    ∃ seen', blocks.Tours anc seen (cs.flatMap tour) anc seen' ∧
      ∀ x, x ∈ seen' ↔ x ∈ seen ∨ blocks.Reachable x ∧ ∃ c ∈ cs, blocks.Dominates c x := by
  induction cs generalizing seen with
  | nil => exact ⟨seen, .nil, by simp⟩
  | cons c cs ih =>
    obtain ⟨hnot, hnd⟩ := List.nodup_cons.mp hnd
    rw [List.forall_mem_cons] at hparent hunseen htour
    obtain ⟨seen₁, ht₁, hseen₁⟩ := htour.1 seen hunseen.1
    have hunseen₁ : ∀ d ∈ cs, ∀ x ∈ seen₁, ¬ blocks.Dominates d x := by
      intro d hd x hx hdx
      rcases (hseen₁ x).mp hx with hx | ⟨hr, hcx⟩
      · exact hunseen.2 d hd x hx hdx
      · obtain rfl := child_unique hw hparent.1 (hparent.2 d hd) hr hcx hdx
        exact hnot hd
    obtain ⟨seen₂, ht₂, hseen₂⟩ := ih hnd hparent.2 hunseen₁ htour.2
    refine ⟨seen₂, ?_, fun x => ?_⟩
    · rw [List.flatMap_cons]
      exact ht₁.append ht₂
    · rw [hseen₂, hseen₁]
      simp only [List.mem_cons, exists_eq_or_imp]
      tauto

theorem tours_from (hw : blocks.Wired) (hr : blocks.Reachable b)
    (habove : ∀ p, p ∈ anc ↔ blocks.StrictlyDominates p b)
    (hbelow : ∀ c ∈ seen, ¬ blocks.Dominates b c)
    (hheight : (build blocks).size ≤ height + (build blocks).depth b) :
    ∃ seen', blocks.Tours anc seen ((build blocks).tourFrom height b) anc seen' ∧
      ∀ c, c ∈ seen' ↔ c ∈ seen ∨ blocks.Reachable c ∧ blocks.Dominates b c := by
  induction height generalizing b anc seen with
  | zero =>
    have hlt := depth_lt_size hw hr
    omega
  | succ height ih =>
    have hparent : ∀ c ∈ (build blocks).children b, (build blocks).parent? c = some b :=
      fun c hc => (mem_children_iff hw).mp hc
    have hchild : ∀ c ∈ (build blocks).children b,
        blocks.Reachable c ∧ blocks.StrictlyDominates b c := fun c hc =>
      have hiff := (parent?_eq_some_iff hw).mp (hparent c hc)
      ⟨hiff.1, hiff.2.1⟩
    have hunseen : ∀ c ∈ (build blocks).children b, ∀ x ∈ b :: seen,
        ¬ blocks.Dominates c x := by
      intro c hc x hx hcx
      rcases List.mem_cons.mp hx with rfl | hx
      · exact (hchild c hc).2.1 ((hchild c hc).2.2.antisymm hcx hr)
      · exact hbelow x hx ((hchild c hc).2.2.trans hcx)
    have hkids : ∀ c ∈ (build blocks).children b, ∀ seen, (∀ x ∈ seen, ¬ blocks.Dominates c x) →
        ∃ seen', blocks.Tours (b :: anc) seen ((build blocks).tourFrom height c) (b :: anc) seen' ∧
          ∀ x, x ∈ seen' ↔ x ∈ seen ∨ blocks.Reachable x ∧ blocks.Dominates c x := by
      intro c hc seen hbelow
      refine ih (hchild c hc).1 (fun p => above_child hw habove (hparent c hc)) hbelow ?_
      have hdepth := depth_child hw (hparent c hc)
      omega
    obtain ⟨seen', ht, hseen⟩ := tours_children hw (nodup_children hw b) hparent hunseen hkids
    refine ⟨seen', ?_, fun x => ?_⟩
    · have hnot : b ∉ anc := fun hm => ((habove b).mp hm).1 rfl
      rw [tourFrom, List.cons_append]
      exact .enter hr habove hbelow (ht.append (.leave hnot .nil))
    · rw [hseen, List.mem_cons]
      constructor
      · rintro ((rfl | hx) | ⟨hrx, c, hc, hcx⟩)
        · exact .inr ⟨hr, .refl _ _⟩
        · exact .inl hx
        · exact .inr ⟨hrx, (hchild c hc).2.2.trans hcx⟩
      · rintro (hx | ⟨hrx, hbx⟩)
        · exact .inl (.inr hx)
        · by_cases hne : b = x
          · exact .inl (.inl hne.symm)
          · obtain ⟨c, hc, hcx⟩ := exists_child hw hrx ⟨hne, hbx⟩
            exact .inr ⟨hrx, c, (mem_children_iff hw).mpr hc, hcx⟩

theorem tours_tour (hw : blocks.Wired) :
    ∃ seen, blocks.Tours [] [] (build blocks).tour [] seen ∧
      ∀ c, c ∈ seen ↔ blocks.Reachable c := by
  have hentry : blocks.Reachable entryBlock := .entry (by simp)
  have habove : ∀ p, p ∈ ([] : List BlockId) ↔ blocks.StrictlyDominates p entryBlock := fun p => by
    simp [Blocks.not_strictlyDominates_entry]
  have hbelow : ∀ c ∈ ([] : List BlockId), ¬ blocks.Dominates entryBlock c := by simp
  obtain ⟨seen, ht, hseen⟩ := tours_from hw hentry habove hbelow (Nat.le_add_right _ _)
  refine ⟨seen, ht, fun c => ?_⟩
  rw [hseen]
  simp [Blocks.entry_dominates]

end DominatorTree

end ShaderSSA
