import ShaderSSA.Instr
import ShaderSSA.Proofs.Success

/-! The sources of a body, slot by slot. Overwriting a source is one case of sending every source
through a function of its slot, and the rest of the body stays as it is. -/

namespace ShaderSSA.Body

/-- The body with every source sent through `g`. -/
def mapSrcs (g : Nat → ValueId → ValueId) : Body → Body
  | alu a => .alu { a with srcs := a.srcs.mapIdx fun s o => { o with value := g s o.value } }
  | access a => .access { a with srcs := a.srcs.mapIdx g }
  | deref ⟨.element parent index, mode, type⟩ =>
    .deref ⟨.element (g 0 parent) (g 1 index), mode, type⟩
  | b => b

theorem srcs_mapSrcs (b : Body) (g : Nat → ValueId → ValueId) :
    (b.mapSrcs g).srcs = b.srcs.mapIdx g := by
  rcases b with ⟨a⟩ | ⟨a⟩ | ⟨⟨step, mode, type⟩⟩ | ⟨l⟩ | _
  · simp only [mapSrcs, srcs]
    apply List.ext_getElem? 
    intro s
    simp only [List.getElem?_map, List.getElem?_mapIdx, Option.map_map]
    rfl
  · rfl
  · cases step <;> simp [mapSrcs, srcs]
  · simp [mapSrcs, srcs]
  · simp [mapSrcs, srcs]

@[simp] theorem length_srcs_mapSrcs (b : Body) (g : Nat → ValueId → ValueId) :
    (b.mapSrcs g).srcs.length = b.srcs.length := by
  simp [srcs_mapSrcs]

theorem getElem?_srcs_mapSrcs (b : Body) (g : Nat → ValueId → ValueId) (s : Nat) :
    (b.mapSrcs g).srcs[s]? = b.srcs[s]?.map (g s) := by
  simp [srcs_mapSrcs]

theorem mapSrcs_congr {b : Body} {g k : Nat → ValueId → ValueId}
    (h : ∀ s v, b.srcs[s]? = some v → g s v = k s v) : b.mapSrcs g = b.mapSrcs k := by
  rcases b with ⟨a⟩ | ⟨a⟩ | ⟨⟨step, mode, type⟩⟩ | ⟨l⟩ | _
  · have he : a.srcs.mapIdx (fun s o => ({ o with value := g s o.value } : Operand)) =
        a.srcs.mapIdx fun s o => { o with value := k s o.value } := by
      apply List.ext_getElem?
      intro s
      simp only [List.getElem?_mapIdx]
      cases ho : a.srcs[s]? with
      | none => rfl
      | some o => simp [h s o.value (by simp [srcs, ho])]
    simp only [mapSrcs, he]
  · have he : a.srcs.mapIdx g = a.srcs.mapIdx k := by
      apply List.ext_getElem?
      intro s
      simp only [List.getElem?_mapIdx]
      cases ho : a.srcs[s]? with
      | none => rfl
      | some v => simp [h s v (by simp [srcs, ho])]
    simp only [mapSrcs, he]
  · cases step with
    | var v => rfl
    | element parent index =>
      simp only [mapSrcs, h 0 parent (by simp [srcs]), h 1 index (by simp [srcs])]
  · rfl
  · rfl

theorem mapSrcs_id (b : Body) : b.mapSrcs (fun _ v => v) = b := by
  rcases b with ⟨a⟩ | ⟨a⟩ | ⟨⟨step, mode, type⟩⟩ | ⟨l⟩ | _
  · simp [mapSrcs, List.mapIdx_eq_zipIdx_map]
  · simp [mapSrcs, List.mapIdx_eq_zipIdx_map]
  · cases step <;> rfl
  · rfl
  · rfl

theorem mapSrcs_mapSrcs (b : Body) (g k : Nat → ValueId → ValueId) :
    (b.mapSrcs g).mapSrcs k = b.mapSrcs fun s v => k s (g s v) := by
  rcases b with ⟨a⟩ | ⟨a⟩ | ⟨⟨step, mode, type⟩⟩ | ⟨l⟩ | _
  · simp only [mapSrcs, List.mapIdx_mapIdx]
    rfl
  · simp only [mapSrcs, List.mapIdx_mapIdx]
    rfl
  · cases step <;> rfl
  · rfl
  · rfl

theorem alu?_mapSrcs_of_none {b : Body} {g : Nat → ValueId → ValueId} (h : b.alu? = none) :
    (b.mapSrcs g).alu? = b.alu? := by
  rcases b with ⟨a⟩ | ⟨a⟩ | ⟨⟨step, mode, type⟩⟩ | ⟨l⟩ | _
  · simp [alu?] at h
  · rfl
  · cases step <;> rfl
  · rfl
  · rfl

theorem src_eq_ok {b : Body} {s : Nat} {v : ValueId} : b.src s = .ok v ↔ b.srcs[s]? = some v := by
  rcases b with ⟨a⟩ | ⟨a⟩ | ⟨⟨step, mode, type⟩⟩ | ⟨l⟩ | _
  · simp [src, srcs]
  · simp [src, srcs, Access.src]
  · cases step with
    | var v => simp [src, srcs]
    | element parent index =>
      rcases s with _ | _ | s
      · simp [src, srcs]
      · simp [src, srcs]
      · simp [src, srcs]
  · simp [src, srcs]
  · simp [src, srcs]

theorem setSrc_eq_ok {b b' : Body} {s : Nat} {v : ValueId} :
    b.setSrc s v = .ok b' ↔
      s < b.srcs.length ∧ b' = b.mapSrcs fun k w => if k = s then v else w := by
  rcases b with ⟨a⟩ | ⟨a⟩ | ⟨⟨step, mode, type⟩⟩ | ⟨l⟩ | _
  · have he : a.srcs.modify s (fun o => { o with value := v }) =
        a.srcs.mapIdx fun k o => { o with value := if k = s then v else o.value } := by
      apply List.ext_getElem?
      intro k
      simp only [List.getElem?_modify, List.getElem?_mapIdx]
      by_cases hk : s = k
      · simp [hk]
      · simp [hk, Ne.symm hk]
    by_cases hs : s < a.srcs.length
    · simp [setSrc, srcs, hs, mapSrcs, he, eq_comm]
    · simp [setSrc, srcs, hs]
  · have he : a.srcs.set s v = a.srcs.mapIdx fun k w => if k = s then v else w := by
      apply List.ext_getElem?
      intro k
      simp only [List.getElem?_set, List.getElem?_mapIdx]
      by_cases hk : s = k
      · subst hk
        by_cases hs : s < a.srcs.length
        · simp [hs]
        · simp [hs]
      · simp [hk, Ne.symm hk]
    by_cases hs : s < a.srcs.length
    · simp [setSrc, srcs, hs, mapSrcs, he, eq_comm]
    · simp [setSrc, srcs, hs]
  · cases step with
    | var w => simp [setSrc, srcs]
    | element parent index =>
      rcases s with _ | _ | s
      · simp [setSrc, srcs, mapSrcs, eq_comm]
      · simp [setSrc, srcs, mapSrcs, eq_comm]
      · simp [setSrc, srcs]
  · simp [setSrc, srcs]
  · simp [setSrc, srcs]

end ShaderSSA.Body
