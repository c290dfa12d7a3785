import ShaderSSA.Proofs.EditResults

/-! Views of a function, one for each kind of record. An edit is described by the views it
changes; the lemmas here let it pass over the others. -/

namespace ShaderSSA

/-- The slots that name a place: the parent of an array step and the deref of a deref access. -/
def Body.isPlaceSlot : Body → Nat → Bool
  | deref _, slot => slot == 0
  | access a, slot => a.kind.isDerefAccess && slot == 0
  | _, _ => false

namespace Function

def body? (f : Function) (i : InstrId) : Option Body := (f.instrs.get? i).map (·.body)

def srcs? (f : Function) (i : InstrId) : Option (List ValueId) :=
  (f.instrs.get? i).map (·.body.srcs)

def dest? (f : Function) (i : InstrId) : Option ValueId := (f.instrs.get? i).bind (·.dest)

/-- The block of an instruction that is not removed. -/
def home? (f : Function) (i : InstrId) : Option BlockId :=
  (f.instrs.get? i).bind fun x => if x.removed then none else some x.block

def source? (f : Function) (v : ValueId) : Option InstrId := (f.values.get? v).map (·.source)

def shape? (f : Function) (v : ValueId) : Option Shape := (f.values.get? v).map (·.shape)

def uses? (f : Function) (v : ValueId) : Option (List Use) := (f.values.get? v).map (·.uses)

def branches? (f : Function) (v : ValueId) : Option (List BlockId) :=
  (f.values.get? v).map (·.branchUses)

def preds? (f : Function) (b : BlockId) : Option (List BlockId) := (f.blocks.get? b).map (·.preds)

def terminator? (f : Function) (b : BlockId) : Option Terminator :=
  (f.blocks.get? b).map (·.terminator)

def condition? (f : Function) (b : BlockId) : Option ValueId :=
  (f.terminator? b).bind (·.condition?)

/-- The value that an instruction reads through a slot, unless it is removed. -/
def reads? (f : Function) (u : Use) : Option ValueId :=
  (f.home? u.instr).bind fun _ => (f.srcs? u.instr).bind (·[u.slot]?)

/-- Whether a value is defined by a deref. -/
def isPlace (f : Function) (v : ValueId) : Bool :=
  ((f.source? v).bind f.body?).any (·.deref?.isSome)

theorem isPlace_eq {f : Function} {v : ValueId} {i : InstrId} {body : Body}
    (hs : f.source? v = some i) (hb : f.body? i = some body) :
    f.isPlace v = body.deref?.isSome := by
  simp [isPlace, hs, hb]

section

variable {f : Function} {gi : InstrId → Instr → Instr} {gv : ValueId → Value → Value}
  {gb : BlockId → Block → Block}

theorem body?_mapInstrs (h : ∀ i x, (gi i x).body = x.body) :
    (f.mapInstrs gi).body? = f.body? := by
  funext i
  simp [body?, mapInstrs, Function.comp_def, h]

theorem srcs?_mapInstrs (h : ∀ i x, (gi i x).body.srcs = x.body.srcs) :
    (f.mapInstrs gi).srcs? = f.srcs? := by
  funext i
  simp [srcs?, mapInstrs, Function.comp_def, h]

theorem dest?_mapInstrs (h : ∀ i x, (gi i x).dest = x.dest) :
    (f.mapInstrs gi).dest? = f.dest? := by
  funext i
  simp [dest?, mapInstrs, Option.bind_map, h]

theorem home?_mapInstrs (hr : ∀ i x, (gi i x).removed = x.removed)
    (hb : ∀ i x, (gi i x).block = x.block) : (f.mapInstrs gi).home? = f.home? := by
  funext i
  simp [home?, mapInstrs, Option.bind_map, hr, hb]

theorem source?_mapValues (h : ∀ v x, (gv v x).source = x.source) :
    (f.mapValues gv).source? = f.source? := by
  funext v
  simp [source?, mapValues, Function.comp_def, h]

theorem shape?_mapValues (h : ∀ v x, (gv v x).shape = x.shape) :
    (f.mapValues gv).shape? = f.shape? := by
  funext v
  simp [shape?, mapValues, Function.comp_def, h]

theorem uses?_mapValues (h : ∀ v x, (gv v x).uses = x.uses) :
    (f.mapValues gv).uses? = f.uses? := by
  funext v
  simp [uses?, mapValues, Function.comp_def, h]

theorem branches?_mapValues (h : ∀ v x, (gv v x).branchUses = x.branchUses) :
    (f.mapValues gv).branches? = f.branches? := by
  funext v
  simp [branches?, mapValues, Function.comp_def, h]

theorem preds?_mapBlocks (h : ∀ b x, (gb b x).preds = x.preds) :
    (f.mapBlocks gb).preds? = f.preds? := by
  funext b
  simp [preds?, mapBlocks, Function.comp_def, h]

theorem terminator?_mapBlocks (h : ∀ b x, (gb b x).terminator = x.terminator) :
    (f.mapBlocks gb).terminator? = f.terminator? := by
  funext b
  simp [terminator?, mapBlocks, Function.comp_def, h]

theorem blockInstrs_mapBlocks (h : ∀ b x, (gb b x).instrs = x.instrs) :
    (f.mapBlocks gb).blockInstrs = f.blockInstrs := by
  funext b
  simp only [blockInstrs, mapBlocks, Arena.get?_mapIds]
  cases f.blocks.get? b <;> simp [h]

end

theorem successors_eq (f : Function) (b : BlockId) :
    f.blocks.successors b = (f.terminator? b).elim [] (·.successors) := by
  simp only [Blocks.successors, terminator?]
  cases f.blocks.get? b <;> rfl

theorem preds_eq (f : Function) (b : BlockId) : f.blocks.preds b = (f.preds? b).getD [] := by
  simp only [Blocks.preds, preds?]
  cases f.blocks.get? b <;> rfl

theorem successors_mapBlocks {f : Function} {gb : BlockId → Block → Block}
    (h : ∀ b x, (gb b x).terminator.successors = x.terminator.successors) :
    (f.mapBlocks gb).blocks.successors = f.blocks.successors := by
  funext b
  simp only [Blocks.successors, mapBlocks, Arena.get?_mapIds]
  cases f.blocks.get? b <;> simp [h]

theorem hasValue_iff {f : Function} {v : ValueId} :
    f.hasValue v = true ↔ ∃ x, f.values.get? v = some x := by
  simp [hasValue, Option.isSome_iff_exists]

theorem home?_eq_some {f : Function} {i : InstrId} {b : BlockId} :
    f.home? i = some b ↔
      ∃ x, f.instrs.get? i = some x ∧ x.removed = false ∧ x.block = b := by
  simp only [home?, Option.bind_eq_some_iff]
  refine exists_congr fun x => and_congr_right fun _ => ?_
  cases x.removed <;> simp

theorem exists_body {f : Function} {i : InstrId} {b : BlockId} (h : f.home? i = some b) :
    ∃ body, f.body? i = some body := by
  obtain ⟨x, hx, -⟩ := home?_eq_some.mp h
  exact ⟨x.body, by simp [body?, hx]⟩

theorem forall_body_iff (f : Function) (P : InstrId → Body → Prop) :
    (∀ i ∈ f.instrs.ids, (f.home? i).isSome → ∀ body ∈ f.body? i, P i body) ↔
      ∀ i b body, f.home? i = some b → f.body? i = some body → P i body := by
  constructor
  · intro h i b body hi hbody
    obtain ⟨x, hx, -⟩ := home?_eq_some.mp hi
    exact h i ((Arena.mem_ids _ _).mpr (Arena.get?_eq_some_lt hx)) (by simp [hi]) body hbody
  · intro h i _ hi body hbody
    obtain ⟨b, hb⟩ := Option.isSome_iff_exists.mp hi
    exact h i b body hb hbody

theorem forall_access_iff (f : Function) (P : InstrId → Access → Prop) :
    (∀ i ∈ f.instrs.ids, (f.home? i).isSome → ∀ a ∈ (f.body? i).bind Body.access?, P i a) ↔
      ∀ i b a, f.home? i = some b → f.body? i = some (.access a) → P i a := by
  simp only [Option.mem_def, Option.bind_eq_some_iff, forall_exists_index, and_imp]
  have h := f.forall_body_iff fun i body => ∀ a, body.access? = some a → P i a
  constructor
  · intro hall i b a hi ha
    exact h.mp (fun i hi hs body hb a => hall i hi hs a body hb) i b _ hi ha a rfl
  · intro hall i hi hs a body hb
    refine h.mpr (fun i b body hi hb a ha => ?_) i hi hs body hb a
    cases body <;> cases ha
    exact hall i b a hi hb

theorem reads?_eq_some {f : Function} {u : Use} {v : ValueId} :
    f.reads? u = some v ↔ ∃ x, f.instrs.get? u.instr = some x ∧ x.removed = false ∧
      x.body.srcs[u.slot]? = some v := by
  simp only [reads?, home?, srcs?]
  cases f.instrs.get? u.instr with
  | none => simp
  | some x => cases hr : x.removed <;> simp [hr]

theorem srcs?_eq_map (f : Function) (i : InstrId) : f.srcs? i = (f.body? i).map Body.srcs := by
  simp [srcs?, body?, Function.comp_def]

theorem reads?_iff {f : Function} {u : Use} {v : ValueId} : f.reads? u = some v ↔
    ∃ b body, f.home? u.instr = some b ∧ f.body? u.instr = some body ∧
      body.srcs[u.slot]? = some v := by
  simp only [reads?, srcs?_eq_map, Option.bind_eq_some_iff, Option.map_eq_some_iff]
  constructor
  · rintro ⟨b, hb, vs, ⟨body, hbody, rfl⟩, hv⟩
    exact ⟨b, body, hb, hbody, hv⟩
  · rintro ⟨b, body, hb, hbody, hv⟩
    exact ⟨b, hb, body.srcs, ⟨body, hbody, rfl⟩, hv⟩

theorem srcs_of_reads {f : Function} {u : Use} {v : ValueId} {body : Body}
    (hu : f.reads? u = some v) (hb : f.body? u.instr = some body) :
    body.srcs[u.slot]? = some v := by
  obtain ⟨_, body', -, hb', hv⟩ := reads?_iff.mp hu
  rwa [Option.some.inj (hb.symm.trans hb')]

section Redirected

variable (f : Function) (g : Use → ValueId → ValueId)

@[simp] theorem home?_redirect : (f.redirect g).home? = f.home? :=
  home?_mapInstrs (fun _ _ => rfl) fun _ _ => rfl

@[simp] theorem dest?_redirect : (f.redirect g).dest? = f.dest? :=
  dest?_mapInstrs fun _ _ => rfl

theorem body?_redirect (i : InstrId) :
    (f.redirect g).body? i = (f.body? i).map fun b => b.mapSrcs fun s => g ⟨i, s⟩ := by
  simp [body?, get?_instrs_redirect, Function.comp_def]

theorem srcs?_redirect (i : InstrId) :
    (f.redirect g).srcs? i = (f.srcs? i).map fun vs => vs.mapIdx fun s => g ⟨i, s⟩ := by
  simp [srcs?, get?_instrs_redirect, Function.comp_def, Body.srcs_mapSrcs]

theorem reads?_redirect (u : Use) : (f.redirect g).reads? u = (f.reads? u).map (g u) := by
  simp only [reads?, home?_redirect, srcs?_redirect]
  cases f.home? u.instr with
  | none => rfl
  | some b => cases f.srcs? u.instr <;> simp

end Redirected

section Inserted

variable (f : Function) (b : BlockId) (pos : Nat) (body : Body) (dest : Option Shape)

theorem ne_of_hasValue {f : Function} {w : ValueId} (h : f.hasValue w) :
    w ≠ ⟨f.values.size⟩ := by
  rintro rfl
  simp [hasValue, Arena.get?_size] at h

theorem ne_of_home {f : Function} {j : InstrId} {c : BlockId} (h : f.home? j = some c) :
    j ≠ ⟨f.instrs.size⟩ := by
  rintro rfl
  simp [home?, Arena.get?_size] at h

theorem get?_instrs_inserted (j : InstrId) : (f.inserted b pos body dest).instrs.get? j =
    if j = ⟨f.instrs.size⟩ then some ⟨body, b, dest.map fun _ => ⟨f.values.size⟩, false⟩
    else f.instrs.get? j := by
  simp only [inserted, Arena.get?_alloc]
  rfl

theorem get?_values_inserted (w : ValueId) : (f.inserted b pos body dest).values.get? w =
    if w = ⟨f.values.size⟩ then dest.map fun shape => ⟨⟨f.instrs.size⟩, shape, [], []⟩
    else (f.values.get? w).map fun x =>
      { x with uses := x.uses ++ Use.ofSources ⟨f.instrs.size⟩ w body.srcs.zipIdx } := by
  cases dest with
  | none =>
    simp only [inserted, insertedValues, Option.elim, Arena.get?_mapIds, Option.map_none]
    by_cases hw : w = ⟨f.values.size⟩
    · simp [hw, Arena.get?_size]
    · simp [hw]
  | some shape =>
    simp only [inserted, insertedValues, Option.elim, Arena.get?_alloc, Arena.get?_mapIds,
      Option.map_some]
    simp [Arena.alloc]

theorem get?_blocks_inserted (c : BlockId) : (f.inserted b pos body dest).blocks.get? c =
    (f.blocks.get? c).map fun x =>
      if c = b then { x with instrs := x.instrs.insertIdx pos ⟨f.instrs.size⟩ } else x := by
  simp [inserted]

theorem srcs?_inserted (j : InstrId) : (f.inserted b pos body dest).srcs? j =
    if j = ⟨f.instrs.size⟩ then some body.srcs else f.srcs? j := by
  simp only [srcs?, get?_instrs_inserted]
  split <;> rfl

theorem body?_inserted (j : InstrId) : (f.inserted b pos body dest).body? j =
    if j = ⟨f.instrs.size⟩ then some body else f.body? j := by
  simp only [body?, get?_instrs_inserted]
  split <;> rfl

theorem dest?_inserted (j : InstrId) : (f.inserted b pos body dest).dest? j =
    if j = ⟨f.instrs.size⟩ then dest.map fun _ => ⟨f.values.size⟩ else f.dest? j := by
  simp only [dest?, get?_instrs_inserted]
  split <;> rfl

theorem home?_inserted (j : InstrId) : (f.inserted b pos body dest).home? j =
    if j = ⟨f.instrs.size⟩ then some b else f.home? j := by
  simp only [home?, get?_instrs_inserted]
  split <;> rfl

theorem source?_inserted (w : ValueId) : (f.inserted b pos body dest).source? w =
    if w = ⟨f.values.size⟩ then dest.map fun _ => ⟨f.instrs.size⟩ else f.source? w := by
  simp only [source?, get?_values_inserted]
  split <;> simp [Function.comp_def]

theorem shape?_inserted (w : ValueId) : (f.inserted b pos body dest).shape? w =
    if w = ⟨f.values.size⟩ then dest else f.shape? w := by
  simp only [shape?, get?_values_inserted]
  split <;> simp [Function.comp_def]

theorem branches?_inserted (w : ValueId) : (f.inserted b pos body dest).branches? w =
    if w = ⟨f.values.size⟩ then dest.map fun _ => [] else f.branches? w := by
  simp only [branches?, get?_values_inserted]
  split <;> simp [Function.comp_def]

theorem uses?_inserted (w : ValueId) : (f.inserted b pos body dest).uses? w =
    if w = ⟨f.values.size⟩ then dest.map fun _ => []
    else (f.uses? w).map (· ++ Use.ofSources ⟨f.instrs.size⟩ w body.srcs.zipIdx) := by
  simp only [uses?, get?_values_inserted]
  split <;> simp [Function.comp_def]

theorem hasValue_inserted {w : ValueId} (h : f.hasValue w) :
    (f.inserted b pos body dest).hasValue w := by
  obtain ⟨x, hx⟩ := hasValue_iff.mp h
  simp [hasValue, get?_values_inserted, ne_of_hasValue h, hx]

theorem terminator?_inserted : (f.inserted b pos body dest).terminator? = f.terminator? := by
  funext c
  simp only [terminator?, get?_blocks_inserted]
  cases f.blocks.get? c with
  | none => rfl
  | some x => by_cases hc : c = b <;> simp [hc]

theorem preds?_inserted : (f.inserted b pos body dest).preds? = f.preds? := by
  funext c
  simp only [preds?, get?_blocks_inserted]
  cases f.blocks.get? c with
  | none => rfl
  | some x => by_cases hc : c = b <;> simp [hc]

theorem blockInstrs_inserted (hb : ∃ x, f.blocks.get? b = some x) (c : BlockId) :
    (f.inserted b pos body dest).blockInstrs c =
      if c = b then (f.blockInstrs c).insertIdx pos ⟨f.instrs.size⟩ else f.blockInstrs c := by
  obtain ⟨x, hx⟩ := hb
  simp only [blockInstrs, get?_blocks_inserted]
  by_cases hc : c = b
  · simp [hc, hx]
  · cases hy : f.blocks.get? c <;> simp [hc]

end Inserted

theorem position_eq_ok {f : Function} {i : InstrId} {b : BlockId} {pos : Nat} :
    f.position i = .ok (b, pos) ↔ ∃ x y, f.instrs.get? i = some x ∧ f.blocks.get? b = some y ∧
      x.block = b ∧ y.instrs.idxOf? i = some pos := by
  simp only [position, bind_eq_ok, instr_eq_ok, block_eq_ok, Checked.orElse_eq_ok, pure_eq_ok,
    Prod.mk.injEq, Block.position?]
  constructor
  · rintro ⟨x, hx, y, hy, p, hp, rfl, rfl⟩
    exact ⟨x, y, hx, hy, rfl, hp⟩
  · rintro ⟨x, y, hx, hy, rfl, hp⟩
    exact ⟨x, hx, y, hy, pos, hp, rfl, rfl⟩

theorem position_split {f : Function} {i : InstrId} {b : BlockId} {pos : Nat}
    (h : f.position i = .ok (b, pos)) :
    ∃ pre post, f.blockInstrs b = pre ++ i :: post ∧ pre.length = pos := by
  obtain ⟨x, y, _, hy, _, hp⟩ := position_eq_ok.mp h
  obtain ⟨hlt, he, _⟩ := List.idxOf?_eq_some_iff.mp hp
  refine ⟨y.instrs.take pos, y.instrs.drop (pos + 1), ?_, by simp; omega⟩
  have he : y.instrs[pos] = i := by simpa using he
  simp only [blockInstrs, hy]
  conv_lhs => rw [← List.take_append_drop pos y.instrs, List.drop_eq_getElem_cons hlt, he]

theorem resolve_le {f : Function} {c : Cursor} {b : BlockId} {pos : Nat}
    (h : f.resolve c = .ok (b, pos)) : pos ≤ (f.blockInstrs b).length := by
  cases c with
  | start d =>
    obtain ⟨rfl, rfl⟩ : d = b ∧ 0 = pos := by simpa [resolve] using h
    simp
  | stop d =>
    simp only [resolve, bind_eq_ok, block_eq_ok, pure_eq_ok, Prod.mk.injEq] at h
    obtain ⟨x, hx, rfl, rfl⟩ := h
    simp [blockInstrs, hx]
  | before i =>
    obtain ⟨pre, post, he, rfl⟩ := position_split h
    simp [he]
  | after i =>
    simp only [resolve, bind_eq_ok, pure_eq_ok, Prod.exists, Prod.mk.injEq] at h
    obtain ⟨d, p, hp, rfl, rfl⟩ := h
    obtain ⟨pre, post, he, rfl⟩ := position_split hp
    simp [he]

end Function

end ShaderSSA
