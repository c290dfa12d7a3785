import ShaderSSA.Proofs.Reads

/-! What is left when instructions have been removed: all the rest as it was. The frames of one
removal, of a sweep and of what a sweep takes out are built on this one. -/

namespace ShaderSSA

/-- The same instruction, removed if it was or is `gone`. -/
structure Instr.Struck (gone : Prop) (x y : Instr) : Prop where
  body : y.body = x.body
  block : y.block = x.block
  dest : y.dest = x.dest
  removed : y.removed = true ↔ x.removed = true ∨ gone

/-- The same value, of whose readers none is new and none but those of `S` is lost. -/
structure Value.Released (S : InstrId → Prop) (x y : Value) : Prop where
  source : y.source = x.source
  shape : y.shape = x.shape
  branchUses : y.branchUses = x.branchUses
  fewer : y.uses ⊆ x.uses
  kept : ∀ u, ¬ S u.instr → y.uses.count u = x.uses.count u

/-- The same block, of whose instructions none but those of `S` is lost. -/
structure Block.Thinned (S : InstrId → Prop) (x y : Block) : Prop where
  terminator : y.terminator = x.terminator
  preds : y.preds = x.preds
  order : y.instrs.Sublist x.instrs
  kept : ∀ i ∈ x.instrs, ¬ S i → i ∈ y.instrs

section Relations

variable {S S' : InstrId → Prop} {p p' : Prop}

theorem Instr.Struck.trans {x y z : Instr} (h : x.Struck p y) (h' : y.Struck p' z) :
    x.Struck (p ∨ p') z :=
  ⟨h'.body.trans h.body, h'.block.trans h.block, h'.dest.trans h.dest, by
    rw [h'.removed, h.removed, or_assoc]⟩

theorem Value.Released.trans {x y z : Value} (h : x.Released S y) (h' : y.Released S' z) :
    x.Released (fun i => S i ∨ S' i) z where
  source := h'.source.trans h.source
  shape := h'.shape.trans h.shape
  branchUses := h'.branchUses.trans h.branchUses
  fewer := List.Subset.trans h'.fewer h.fewer
  kept u hu := by
    rw [not_or] at hu
    rw [h'.kept u hu.2, h.kept u hu.1]

theorem Block.Thinned.trans {x y z : Block} (h : x.Thinned S y) (h' : y.Thinned S' z) :
    x.Thinned (fun i => S i ∨ S' i) z where
  terminator := h'.terminator.trans h.terminator
  preds := h'.preds.trans h.preds
  order := h'.order.trans h.order
  kept i hi hs := by
    rw [not_or] at hs
    exact h'.kept i (h.kept i hi hs.1) hs.2

theorem rel_map {α : Type} {r : α → α → Prop} {o : Option α} {g : α → α}
    (h : ∀ x, o = some x → r x (g x)) : Option.Rel r o (o.map g) := by
  cases o with
  | none => exact .none
  | some x => exact .some (h x rfl)

theorem map_eq_of_rel {α β : Type} {r : α → α → Prop} {o o' : Option α} {g : α → β}
    (h : Option.Rel r o o') (hg : ∀ x y, r x y → g y = g x) : o'.map g = o.map g := by
  cases h with
  | none => rfl
  | some hxy => rw [Option.map_some, Option.map_some, hg _ _ hxy]

theorem rel_trans {α : Type} {r r' r'' : α → α → Prop} {o o' o'' : Option α}
    (h : Option.Rel r o o') (h' : Option.Rel r' o' o'')
    (htrans : ∀ x y z, r x y → r' y z → r'' x z) : Option.Rel r'' o o'' := by
  cases h with
  | none =>
    cases h'
    exact .none
  | some hxy =>
    cases h' with
    | some hyz => exact .some (htrans _ _ _ hxy hyz)

end Relations

namespace Function

variable {f g k : Function} {i j : InstrId} {v : ValueId} {b : BlockId} {us us' : List Use}
  {S S' : InstrId → Prop}

/-- `g` is `f` with the instructions of `S` marked as removed. Blocks and records of readers may
have lost these, and all else is as it was. -/
structure Shed (f : Function) (S : InstrId → Prop) (g : Function) : Prop where
  name : g.name = f.name
  dominance : g.dominance = f.dominance
  valid : g.valid = f.valid
  instrs : ∀ i, Option.Rel (Instr.Struck (S i)) (f.instrs.get? i) (g.instrs.get? i)
  values : ∀ v, Option.Rel (Value.Released S) (f.values.get? v) (g.values.get? v)
  blocks : ∀ b, Option.Rel (Block.Thinned S) (f.blocks.get? b) (g.blocks.get? b)

namespace Shed

theorem refl (f : Function) : f.Shed (fun _ => False) f where
  name := rfl
  dominance := rfl
  valid := rfl
  instrs i := by simpa using rel_map (o := f.instrs.get? i) (g := id) fun x _ =>
    ⟨rfl, rfl, rfl, by simp⟩
  values v := by simpa using rel_map (o := f.values.get? v) (g := id) fun x _ =>
    ⟨rfl, rfl, rfl, List.Subset.refl _, by simp⟩
  blocks b := by simpa using rel_map (o := f.blocks.get? b) (g := id) fun x _ =>
    ⟨rfl, rfl, .refl _, by simp⟩

theorem trans (h : f.Shed S g) (h' : g.Shed S' k) : f.Shed (fun i => S i ∨ S' i) k where
  name := h'.name.trans h.name
  dominance := h'.dominance.trans h.dominance
  valid := h'.valid.trans h.valid
  instrs i := rel_trans (h.instrs i) (h'.instrs i) fun _ _ _ => Instr.Struck.trans
  values v := rel_trans (h.values v) (h'.values v) fun _ _ _ => Value.Released.trans
  blocks b := rel_trans (h.blocks b) (h'.blocks b) fun _ _ _ => Block.Thinned.trans

variable (h : f.Shed S g)
include h

theorem source : g.source? = f.source? :=
  funext fun v => map_eq_of_rel (h.values v) fun _ _ hxy => hxy.source

theorem branches : g.branches? = f.branches? :=
  funext fun v => map_eq_of_rel (h.values v) fun _ _ hxy => hxy.branchUses

theorem body : g.body? = f.body? :=
  funext fun i => map_eq_of_rel (h.instrs i) fun _ _ hxy => hxy.body

theorem dest : g.dest? = f.dest? := by
  funext i
  have hi := h.instrs i
  rw [dest?, dest?]
  generalize f.instrs.get? i = o at hi
  generalize g.instrs.get? i = o' at hi
  cases hi with
  | none => rfl
  | some hxy => exact hxy.dest

theorem home_iff : g.home? j = some b ↔ ¬ S j ∧ f.home? j = some b := by
  rw [home?_eq_some, home?_eq_some]
  have hj := h.instrs j
  generalize f.instrs.get? j = o at hj
  generalize g.instrs.get? j = o' at hj
  cases hj with
  | none => simp
  | some hxy =>
    have hlive := not_congr hxy.removed
    rw [not_or, Bool.not_eq_true, Bool.not_eq_true, and_comm] at hlive
    simp [hlive, hxy.block, and_assoc]

theorem home_before (hj : g.home? j = some b) : f.home? j = some b := (h.home_iff.mp hj).2

theorem uses_before (hus' : g.uses? v = some us') : ∃ us, f.uses? v = some us ∧ us' ⊆ us := by
  have hv := h.values v
  rw [uses?] at hus' ⊢
  generalize f.values.get? v = o at hv
  generalize g.values.get? v = o' at hv hus'
  cases hv with
  | none => simp at hus'
  | some hxy =>
    obtain rfl := Option.some.inj hus'
    exact ⟨_, rfl, hxy.fewer⟩

theorem uses_after (hus : f.uses? v = some us) :
    ∃ us', g.uses? v = some us' ∧ ∀ u ∈ us, u ∈ us' ∨ S u.instr := by
  have hv := h.values v
  rw [uses?] at hus ⊢
  generalize f.values.get? v = o at hv hus
  generalize g.values.get? v = o' at hv
  cases hv with
  | none => simp at hus
  | some hxy =>
    obtain rfl := Option.some.inj hus
    refine ⟨_, rfl, fun u hu => ?_⟩
    by_cases hs : S u.instr
    · exact .inr hs
    · rw [← List.count_pos_iff, ← hxy.kept u hs, List.count_pos_iff] at hu
      exact .inl hu

theorem blockInstrs_subset (b : BlockId) : g.blockInstrs b ⊆ f.blockInstrs b := by
  have hb := h.blocks b
  rw [blockInstrs, blockInstrs]
  generalize f.blocks.get? b = o at hb
  generalize g.blocks.get? b = o' at hb
  cases hb with
  | none => exact List.Subset.refl _
  | some hxy => exact hxy.order.subset

end Shed

theorem shed_of_remove (h : f.remove i = .ok g) : f.Shed (· = i) g := by
  obtain ⟨x, U, -, -, -, hU, rfl⟩ := remove_ok h
  refine ⟨rfl, rfl, rfl, fun j => ?_, fun v => ?_, fun b => ?_⟩ <;>
    simp only [mapInstrs, mapBlocks, mapValues, Arena.get?_mapIds]
  · refine rel_map fun y _ => ?_
    by_cases hji : j = i
    · simp only [if_pos hji]
      exact ⟨rfl, rfl, rfl, by simp [hji]⟩
    · simp only [if_neg hji]
      exact ⟨rfl, rfl, rfl, by simp [hji]⟩
  · refine rel_map fun y hy => ⟨rfl, rfl, rfl, fun u hu => ?_, fun u hu => ?_⟩
    · exact (hU v y hy).mem_iff.mpr (List.mem_append_left _ hu)
    · rw [(hU v y hy).count_eq u, List.count_append, count_readers,
        if_neg fun hui => hu hui.1, Nat.add_zero]
  · refine rel_map fun y _ => ?_
    by_cases hb : b = x.block
    · simp only [if_pos hb]
      exact ⟨rfl, rfl, List.erase_sublist, fun j hj hji => (List.mem_erase_of_ne hji).mpr hj⟩
    · simp only [if_neg hb]
      exact ⟨rfl, rfl, .refl _, fun j hj _ => hj⟩

/-- `i` is gone, and nobody read what it defined. -/
structure Dropped (f : Function) (i : InstrId) (g : Function) : Prop extends
    f.Shed (· = i) g where
  unread : ∀ v, f.dest? i = some v → f.uses? v = some [] ∧ f.branches? v = some []

theorem dropped_of_remove (h : f.remove i = .ok g) : f.Dropped i g := by
  refine ⟨shed_of_remove h, fun v hv => ?_⟩
  obtain ⟨x, U, hx, -, hd, -, -⟩ := remove_ok h
  obtain ⟨y, hy, hread⟩ := hd v (by simpa [dest?, hx] using hv)
  simpa [uses?, branches?, hy, Value.isRead] using hread

theorem Dropped.home (h : f.Dropped i g) (j : InstrId) :
    g.home? j = if j = i then none else f.home? j := by
  refine Option.ext fun b => ?_
  rw [h.home_iff]
  split_ifs with hji <;> simp [hji]

end Function

end ShaderSSA
