import ShaderSSA.Edit
import ShaderSSA.Proofs.Sources

/-! Edits as maps over the arenas. Changing one item, a fold of such changes and a change of all
items are all of the form "every item goes through a function of its id", so that what an edit
leaves can be written down in one equation. -/

namespace ShaderSSA

namespace Arena

variable {e : Entity} {α : Type}

/-- Every item sent through `g` with its id. -/
def mapIds (a : Arena e α) (g : Id e → α → α) : Arena e α := ⟨a.items.mapIdx fun n x => g ⟨n⟩ x⟩

@[simp] theorem get?_mapIds (a : Arena e α) (g : Id e → α → α) (i : Id e) :
    (a.mapIds g).get? i = (a.get? i).map (g i) := by
  simp [mapIds, get?]

@[simp] theorem size_mapIds (a : Arena e α) (g : Id e → α → α) : (a.mapIds g).size = a.size := by
  simp [mapIds, size]

theorem ext_get? {a b : Arena e α} (h : ∀ i, a.get? i = b.get? i) : a = b := by
  cases a with
  | mk x =>
    cases b with
    | mk y =>
      have he : x = y := Array.ext_getElem? fun n => h ⟨n⟩
      rw [he]

theorem modify_eq_mapIds (a : Arena e α) (i : Id e) (g : α → α) :
    a.modify i g = a.mapIds fun j x => if j = i then g x else x := by
  apply ext_get?
  intro j
  rw [get?_modify, get?_mapIds]
  by_cases h : i = j
  · simp [h]
  · have h' : ¬ j = i := fun hh => h hh.symm
    simp [h, h']

@[simp] theorem mapIds_mapIds (a : Arena e α) (g k : Id e → α → α) :
    (a.mapIds g).mapIds k = a.mapIds fun i x => k i (g i x) := by
  apply ext_get?
  intro i
  simp only [get?_mapIds, Option.map_map]
  rfl

@[simp] theorem mapIds_id (a : Arena e α) : (a.mapIds fun _ x => x) = a := by
  apply ext_get?
  intro i
  simp

theorem mapIds_congr {a : Arena e α} {g k : Id e → α → α}
    (h : ∀ i x, a.get? i = some x → g i x = k i x) : a.mapIds g = a.mapIds k := by
  apply ext_get?
  intro i
  simp only [get?_mapIds]
  cases hx : a.get? i with
  | none => rfl
  | some x => simp [h i x hx]

theorem modify_alloc (a : Arena e α) (x : α) (g : α → α) :
    (a.alloc x).2.modify (a.alloc x).1 g = (a.alloc (g x)).2 := by
  apply ext_get?
  intro j
  rw [get?_modify, get?_alloc, get?_alloc]
  simp only [alloc]
  by_cases h : j = ⟨a.size⟩
  · simp [h]
  · simp [h, Ne.symm h]

theorem get?_size (a : Arena e α) : a.get? ⟨a.size⟩ = none := by
  simp [get?_eq_none_iff]

theorem get?_isSome_iff (a : Arena e α) (i : Id e) : (a.get? i).isSome ↔ i.index < a.size := by
  simp [get?, size]

theorem get?_eq_some_lt {a : Arena e α} {i : Id e} {x : α} (h : a.get? i = some x) :
    i.index < a.size := by
  rw [← get?_isSome_iff, h]
  rfl

theorem exists_get?_of_lt {a : Arena e α} {i : Id e} (h : i.index < a.size) :
    ∃ x, a.get? i = some x :=
  Option.isSome_iff_exists.mp ((get?_isSome_iff a i).mpr h)

end Arena

namespace Function

def mapInstrs (f : Function) (g : InstrId → Instr → Instr) : Function :=
  { f with instrs := f.instrs.mapIds g }

def mapValues (f : Function) (g : ValueId → Value → Value) : Function :=
  { f with values := f.values.mapIds g }

def mapBlocks (f : Function) (g : BlockId → Block → Block) : Function :=
  { f with blocks := f.blocks.mapIds g }

theorem modifyInstr_eq (f : Function) (i : InstrId) (g : Instr → Instr) :
    f.modifyInstr i g = f.mapInstrs fun j x => if j = i then g x else x := by
  simp only [modifyInstr, mapInstrs, Arena.modify_eq_mapIds]

theorem modifyValue_eq (f : Function) (v : ValueId) (g : Value → Value) :
    f.modifyValue v g = f.mapValues fun w x => if w = v then g x else x := by
  simp only [modifyValue, mapValues, Arena.modify_eq_mapIds]

theorem modifyBlock_eq (f : Function) (b : BlockId) (g : Block → Block) :
    f.modifyBlock b g = f.mapBlocks fun c x => if c = b then g x else x := by
  simp only [modifyBlock, mapBlocks, Arena.modify_eq_mapIds]

@[simp] theorem mapInstrs_id (f : Function) : (f.mapInstrs fun _ x => x) = f := by
  simp [mapInstrs]

@[simp] theorem mapValues_id (f : Function) : (f.mapValues fun _ x => x) = f := by
  simp [mapValues]

@[simp] theorem mapBlocks_id (f : Function) : (f.mapBlocks fun _ x => x) = f := by
  simp [mapBlocks]

@[simp] theorem mapInstrs_mapInstrs (f : Function) (g k : InstrId → Instr → Instr) :
    (f.mapInstrs g).mapInstrs k = f.mapInstrs fun i x => k i (g i x) := by
  simp [mapInstrs]

@[simp] theorem mapValues_mapValues (f : Function) (g k : ValueId → Value → Value) :
    (f.mapValues g).mapValues k = f.mapValues fun v x => k v (g v x) := by
  simp [mapValues]

@[simp] theorem mapBlocks_mapBlocks (f : Function) (g k : BlockId → Block → Block) :
    (f.mapBlocks g).mapBlocks k = f.mapBlocks fun b x => k b (g b x) := by
  simp [mapBlocks]

theorem mapInstrs_congr {f : Function} {g k : InstrId → Instr → Instr}
    (h : ∀ i x, f.instrs.get? i = some x → g i x = k i x) : f.mapInstrs g = f.mapInstrs k := by
  simp only [mapInstrs, Arena.mapIds_congr h]

theorem mapValues_congr {f : Function} {g k : ValueId → Value → Value}
    (h : ∀ v x, f.values.get? v = some x → g v x = k v x) : f.mapValues g = f.mapValues k := by
  simp only [mapValues, Arena.mapIds_congr h]

theorem mapBlocks_congr {f : Function} {g k : BlockId → Block → Block}
    (h : ∀ b x, f.blocks.get? b = some x → g b x = k b x) : f.mapBlocks g = f.mapBlocks k := by
  simp only [mapBlocks, Arena.mapIds_congr h]

/-- Every source sent through a function of the reader and the slot. -/
def redirect (f : Function) (g : Use → ValueId → ValueId) : Function :=
  f.mapInstrs fun i x => { x with body := x.body.mapSrcs fun s => g ⟨i, s⟩ }

theorem redirect_id (f : Function) : (f.redirect fun _ v => v) = f := by
  simp only [redirect, Body.mapSrcs_id, mapInstrs_id]

theorem redirect_redirect (f : Function) (g k : Use → ValueId → ValueId) :
    (f.redirect g).redirect k = f.redirect fun u v => k u (g u v) := by
  simp only [redirect, mapInstrs_mapInstrs, Body.mapSrcs_mapSrcs]

@[simp] theorem values_redirect (f : Function) (g : Use → ValueId → ValueId) :
    (f.redirect g).values = f.values := rfl

@[simp] theorem blocks_redirect (f : Function) (g : Use → ValueId → ValueId) :
    (f.redirect g).blocks = f.blocks := rfl

theorem get?_instrs_redirect (f : Function) (g : Use → ValueId → ValueId) (i : InstrId) :
    (f.redirect g).instrs.get? i =
      (f.instrs.get? i).map fun x => { x with body := x.body.mapSrcs fun s => g ⟨i, s⟩ } := by
  simp only [redirect, mapInstrs, Arena.get?_mapIds]

end Function

end ShaderSSA
