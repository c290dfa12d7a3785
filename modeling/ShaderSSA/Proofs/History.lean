import ShaderSSA.Proofs.Views

/-! Histories of edits. A function is reached when some sequence of edits, none of which fails,
leads to it from an empty one. -/

namespace ShaderSSA

/-- What a caller can do to a function. -/
inductive Edit where
  | addBlock
  | setTerminator (b : BlockId) (t : Terminator)
  | setCondition (b : BlockId) (v : ValueId)
  | insert (c : Cursor) (body : Body) (dest : Option Shape)
  | replaceSource (i : InstrId) (slot : Nat) (v : ValueId)
  | replaceOperand (i : InstrId) (slot : Nat) (o : Operand)
  | setSwizzle (i : InstrId) (slot : Nat) (s : Swizzle)
  | replaceUses (old new : ValueId)
  | remove (i : InstrId)
  | requireDominance
  | preserve (kept : Metadata)

namespace Edit

def apply (f : Function) : Edit → Checked Function
  | addBlock => return f.addBlock.2
  | setTerminator b t => f.setTerminator b t
  | setCondition b v => f.setCondition b v
  | insert c body dest => return (← f.insert c body dest).2
  | replaceSource i slot v => f.replaceSource i slot v
  | replaceOperand i slot o => f.replaceOperand i slot o
  | setSwizzle i slot s => f.setSwizzle i slot s
  | replaceUses old new => f.replaceUses old new
  | remove i => f.remove i
  | requireDominance => return f.requireDominance.2
  | preserve kept => return f.preserve kept

def applyAll (es : List Edit) (f : Function) : Checked Function := es.foldlM apply f

/-- The function that a history leads to, or an empty one if it fails. -/
def outcome (es : List Edit) : Function :=
  match applyAll es (.ofName "main") with
  | .ok f => f
  | .error _ => .ofName "main"

/-- An inserted instruction has a slot number of eight bits for each of its sources. -/
def Small : Edit → Prop
  | insert _ body _ => body.srcs.length ≤ 256
  | _ => True

end Edit

namespace Function

def Reached (f : Function) : Prop := ∃ name es, Edit.applyAll es (ofName name) = .ok f

theorem Reached.ofName (name : String) : (ofName name).Reached := ⟨name, [], rfl⟩

theorem Reached.apply {f f' : Function} (hf : f.Reached) {e : Edit} (h : e.apply f = .ok f') :
    f'.Reached := by
  obtain ⟨name, es, he⟩ := hf
  refine ⟨name, es ++ [e], ?_⟩
  simp only [Edit.applyAll] at he
  simp only [Edit.applyAll, List.foldlM_append, List.foldlM_cons, List.foldlM_nil, he, ok_bind,
    h]
  rfl

theorem Reached.outcome (es : List Edit) : (Edit.outcome es).Reached := by
  unfold Edit.outcome
  split
  · rename_i f hf
    exact ⟨"main", es, hf⟩
  · exact .ofName "main"

/-- The changes that edits are made of. -/
inductive Change (f : Function) : Function → Prop
  | addBlock : Change f f.addBlock.2
  | setTerminator {f' b t} : f.setTerminator b t = .ok f' → Change f f'
  | setCondition {f' b v} : f.setCondition b v = .ok f' → Change f f'
  | insert {f' c body dest i} : f.insert c body dest = .ok (i, f') → Change f f'
  | replaceSource {f' i slot v} : f.replaceSource i slot v = .ok f' → Change f f'
  | modifySwizzle {f' i slot e g} : f.modifySwizzle i slot e g = .ok f' → Change f f'
  | replaceUses {f' old new} : f.replaceUses old new = .ok f' → Change f f'
  | remove {f' i} : f.remove i = .ok f' → Change f f'
  | analyses (d m) : (∀ t, d = some t → f.dominance = some t ∨ t = .build f.blocks) →
      (f.dominance.isSome = f.valid.dominance → d.isSome = m.dominance) →
      Change f { f with dominance := d, valid := m }

theorem requireDominance_change (f : Function) : Change f f.requireDominance.2 := by
  unfold requireDominance
  split
  · exact .analyses f.dominance f.valid (fun t ht => Or.inl ht) fun h => h
  · exact .analyses _ _ (fun t ht => Or.inr (by simpa using ht.symm)) fun _ => rfl

theorem preserve_change (f : Function) (kept : Metadata) : Change f (f.preserve kept) := by
  refine .analyses _ _ (fun t ht => Or.inl ?_) fun h => ?_
  · by_cases hk : (f.valid.inter kept).dominance
    · simpa [hk] using ht
    · simp [hk] at ht
  · by_cases hk : (f.valid.inter kept).dominance
    · have hv : f.valid.dominance = true := (Bool.and_eq_true_iff.mp hk).1
      simpa [hk] using h.trans hv
    · simp [hk]

theorem changes_of_apply {f f' : Function} {e : Edit} (h : e.apply f = .ok f') :
    Relation.ReflTransGen Change f f' := by
  cases e with
  | addBlock =>
    obtain rfl := pure_eq_ok.mp h
    exact .single .addBlock
  | setTerminator b t => exact .single (.setTerminator h)
  | setCondition b v => exact .single (.setCondition h)
  | insert c body dest =>
    obtain ⟨⟨i, g⟩, hi, h⟩ := bind_eq_ok.mp h
    obtain rfl := pure_eq_ok.mp h
    exact .single (.insert hi)
  | replaceSource i slot v => exact .single (.replaceSource h)
  | replaceOperand i slot o =>
    obtain ⟨g, hg, h⟩ := bind_eq_ok.mp h
    exact .head (.replaceSource hg) (.single (.modifySwizzle h))
  | setSwizzle i slot s =>
    simp only [Edit.apply, Function.setSwizzle] at h
    exact .single (.modifySwizzle h)
  | replaceUses old new => exact .single (.replaceUses h)
  | remove i => exact .single (.remove h)
  | requireDominance =>
    obtain rfl := pure_eq_ok.mp h
    exact .single (requireDominance_change f)
  | preserve kept =>
    obtain rfl := pure_eq_ok.mp h
    exact .single (preserve_change f kept)

theorem changes_of_applyAll {f f' : Function} {es : List Edit} (h : Edit.applyAll es f = .ok f') :
    Relation.ReflTransGen Change f f' := by
  induction es generalizing f with
  | nil =>
    obtain rfl := pure_eq_ok.mp h
    exact .refl
  | cons e es ih =>
    simp only [Edit.applyAll, List.foldlM_cons, bind_eq_ok] at h
    obtain ⟨g, hg, h⟩ := h
    exact (changes_of_apply hg).trans (ih h)

/-- A property of the empty function that every change keeps holds of every function reached. -/
theorem Reached.induct {P : Function → Prop} (h0 : ∀ name, P (Function.ofName name))
    (hs : ∀ f f', P f → Change f f' → P f') {f : Function} (hf : f.Reached) : P f := by
  obtain ⟨name, es, he⟩ := hf
  have hc := changes_of_applyAll he
  clear he
  induction hc with
  | refl => exact h0 name
  | tail _ hc ih => exact hs _ _ ih hc

end Function

end ShaderSSA
