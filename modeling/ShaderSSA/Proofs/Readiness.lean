import ShaderSSA.Proofs.Terms

/-! What the passes expect of the inputs and outputs of a function, as conditions that can be
evaluated. -/

namespace ShaderSSA

mutual

def VarType.decEq : (s t : VarType) → Decidable (s = t)
  | .vector b m n, .vector b' m' n' => decidable_of_iff (b = b' ∧ m = m' ∧ n = n') (by simp)
  | .matrix b m n k, .matrix b' m' n' k' =>
    decidable_of_iff (b = b' ∧ m = m' ∧ n = n' ∧ k = k') (by simp)
  | .record s ts, .record s' ts' =>
    have := VarType.decEqs ts ts'
    decidable_of_iff (s = s' ∧ ts = ts') (by simp)
  | .array t n, .array t' n' =>
    have := VarType.decEq t t'
    decidable_of_iff (t = t' ∧ n = n') (by simp)
  | .vector .., .matrix .. | .vector .., .record .. | .vector .., .array ..
  | .matrix .., .vector .. | .matrix .., .record .. | .matrix .., .array ..
  | .record .., .vector .. | .record .., .matrix .. | .record .., .array ..
  | .array .., .vector .. | .array .., .matrix .. | .array .., .record .. => isFalse (by simp)

def VarType.decEqs : (s t : List VarType) → Decidable (s = t)
  | [], [] => isTrue rfl
  | t :: ts, t' :: ts' =>
    have := VarType.decEq t t'
    have := VarType.decEqs ts ts'
    decidable_of_iff (t = t' ∧ ts = ts') (by simp)
  | [], _ :: _ | _ :: _, [] => isFalse (by simp)

end

instance : DecidableEq VarType := VarType.decEq

namespace Function

variable {f : Function} {vars : Variables} {v : ValueId} {root : VarId} {x : Variable}
  {t : VarType} {n steps : Nat}

/-- The chain of at most the given number of derefs that leads to a value. -/
def chain? (f : Function) (vars : Variables) : Nat → ValueId → Option (VarId × Variable × VarType)
  | 0, _ => none
  | steps + 1, v =>
    match (f.source? v).bind f.body? with
    | some (.deref ⟨.var root, mode, type⟩) => do
      let x ← vars.get? root
      if mode = x.mode ∧ type = x.type then return (root, x, type) else none
    | some (.deref ⟨.element parent _, mode, type⟩) => do
      match ← f.chain? vars steps parent with
      | (root, x, .array t _) => if mode = x.mode ∧ type = t then return (root, x, type) else none
      | _ => none
    | _ => none

theorem Chain.chain?_eq (h : f.Chain root x n v t) (hx : vars.get? root = some x)
    (hn : n ≤ steps) : f.chain? vars steps v = some (root, x, t) := by
  induction h generalizing steps with
  | var hs hb =>
    cases steps with
    | zero => omega
    | succ steps => simp [chain?, hs, hb, hx]
  | element hs hb _ ih =>
    cases steps with
    | zero => omega
    | succ steps => simp [chain?, hs, hb, ih (Nat.le_of_succ_le_succ hn)]

theorem chain_of_chain? (h : f.chain? vars steps v = some (root, x, t)) :
    vars.get? root = some x ∧ ∃ n, f.Chain root x n v t := by
  induction steps generalizing v t with
  | zero => simp [chain?] at h
  | succ steps ih =>
    simp only [chain?] at h
    split at h
    · rename_i root' mode type hb
      obtain ⟨i, hs, hb⟩ := Option.bind_eq_some_iff.mp hb
      obtain ⟨y, hy, hr⟩ := Option.bind_eq_some_iff.mp h
      split_ifs at hr with hsame
      obtain ⟨rfl, rfl⟩ := hsame
      obtain ⟨rfl, rfl, rfl⟩ : root' = root ∧ y = x ∧ y.type = t := by simpa using hr
      exact ⟨hy, 1, .var hs hb⟩
    · rename_i parent index mode type hb
      obtain ⟨i, hs, hb⟩ := Option.bind_eq_some_iff.mp hb
      obtain ⟨⟨root', y, u⟩, hy, hr⟩ := Option.bind_eq_some_iff.mp h
      cases u with
      | array u length =>
        simp only at hr
        split_ifs at hr with hsame
        obtain ⟨rfl, rfl⟩ := hsame
        obtain ⟨rfl, rfl, rfl⟩ : root' = root ∧ y = x ∧ type = t := by simpa using hr
        obtain ⟨hroot, n, hchain⟩ := ih hy
        exact ⟨hroot, n + 1, .element hs hb hchain⟩
      | _ => simp at hr
    · cases h

end Function

instance (stage : Stage) (modes : Mode) (a : Access) (x : Variable) :
    Decidable (a.Splits stage modes x) :=
  inferInstanceAs (Decidable (_ ∧ _ ∧ _))

instance (stage : Stage) (modes : Mode) (vars : Variables) (f : Function) (a : Access) :
    Decidable (a.Chained stage modes vars f) :=
  decidable_of_iff (∃ v ∈ a.srcs[0]?, ∃ r ∈ f.chain? vars f.values.size v,
    a.Splits stage modes r.2.1 → r.2.1.channel + a.width ≤ 4) <| by
    constructor
    · rintro ⟨v, hv, ⟨root, x, t⟩, hr, hlimit⟩
      obtain ⟨hx, n, hchain⟩ := Function.chain_of_chain? hr
      exact ⟨v, root, x, n, t, hv, hx, hchain, hlimit⟩
    · rintro ⟨v, root, x, n, t, hv, hx, hchain, hlimit⟩
      exact ⟨v, hv, (root, x, t), hchain.chain?_eq hx hchain.length_le, hlimit⟩

/-- A load is as wide as its result, and a store has none. -/
def Access.HasResult (a : Access) (dest : Option Shape) : Prop :=
  dest.map (·.width) = if a.kind.hasDest then some a.width else none

instance (a : Access) (dest : Option Shape) : Decidable (a.HasResult dest) :=
  inferInstanceAs (Decidable (_ = _))

theorem Access.HasResult.isSome_iff {a : Access} {dest : Option Shape} (h : a.HasResult dest) :
    dest.isSome ↔ a.kind.hasDest := by
  rw [← Option.isSome_map (f := (·.width)), h]
  split <;> simp_all

theorem Access.HasResult.width_eq {a : Access} {dest : Option Shape} {s : Shape}
    (h : a.HasResult dest) (hs : dest = some s) : s.width = a.width := by
  rw [HasResult, hs] at h
  split at h <;> simp_all

namespace Function

variable {f : Function} {vars : Variables} {stage : Stage} {modes : Mode}

/-- All values are 32 bits wide, and the deref accesses read chains from variables. -/
structure VarReady (stage : Stage) (modes : Mode) (vars : Variables) (f : Function) : Prop where
  bits : ∀ v s, f.Live v → f.shape? v = some s → s.bits = 32
  access : ∀ i b a, f.home? i = some b → f.body? i = some (.access a) → a.kind.isDerefAccess →
    a.HasResult (f.destShape? i) ∧ 1 ≤ a.width ∧ a.width ≤ 4 ∧ a.Chained stage modes vars f

instance (stage : Stage) (modes : Mode) (vars : Variables) (f : Function) :
    Decidable (f.VarReady stage modes vars) :=
  decidable_of_iff ((∀ v ∈ f.values.ids, f.Live v → ∀ s ∈ f.shape? v, s.bits = 32) ∧
    ∀ i ∈ f.instrs.ids, (f.home? i).isSome → ∀ a ∈ (f.body? i).bind Body.access?,
      a.kind.isDerefAccess →
        a.HasResult (f.destShape? i) ∧ 1 ≤ a.width ∧ a.width ≤ 4 ∧
          a.Chained stage modes vars f) <| by
    rw [f.forall_live_iff fun s => s.bits = 32,
      f.forall_access_iff fun i a => a.kind.isDerefAccess → a.HasResult (f.destShape? i) ∧
        1 ≤ a.width ∧ a.width ≤ 4 ∧ a.Chained stage modes vars f]
    exact ⟨fun h => ⟨h.1, h.2⟩, fun h => ⟨h.bits, h.access⟩⟩

/-- Accesses fit what they load or store, flat ones lie within the range of channels, and deref
accesses read chains from variables. -/
def IoReady (stage : Stage) (modes : Mode) (vars : Variables) (f : Function) : Prop :=
  ∀ i b a, f.home? i = some b → f.body? i = some (.access a) →
    a.HasResult (f.destShape? i) ∧
    (∀ slot ∈ a.kind.storedSlot?, ∀ v ∈ a.srcs[slot]?, ∀ s ∈ f.shape? v,
      1 ≤ a.width ∧ a.width ≤ 4 ∧ a.width ≤ s.width) ∧
    (a.kind.hasComponent → a.component + a.width ≤ 256) ∧
    (a.kind.isDerefAccess → a.Chained stage modes vars f)

instance (stage : Stage) (modes : Mode) (vars : Variables) (f : Function) :
    Decidable (f.IoReady stage modes vars) :=
  decidable_of_iff _ (forall_access_iff f _)

/-- Derefs are read as the parents of array steps and as the places of deref accesses only. -/
structure PlacesApart (f : Function) : Prop where
  reads : ∀ i b body, f.home? i = some b → f.body? i = some body → ∀ slot v,
    body.srcs[slot]? = some v → f.isPlace v → body.isPlaceSlot slot
  conditions : ∀ b v, f.condition? b = some v → f.isPlace v = false

instance (f : Function) : Decidable f.PlacesApart :=
  decidable_of_iff ((∀ i ∈ f.instrs.ids, (f.home? i).isSome → ∀ body ∈ f.body? i,
    ∀ p ∈ body.srcs.zipIdx, f.isPlace p.1 → body.isPlaceSlot p.2) ∧
    ∀ b ∈ f.blocks.ids, ∀ v ∈ f.condition? b, f.isPlace v = false) <| by
    rw [f.forall_body_iff fun i body => ∀ p ∈ body.srcs.zipIdx, f.isPlace p.1 →
      body.isPlaceSlot p.2]
    constructor
    · rintro ⟨hreads, hconditions⟩
      refine ⟨fun i b body hi hbody slot v hv => ?_, fun b v hv => ?_⟩
      · exact hreads i b body hi hbody (v, slot) (List.mem_zipIdx_iff_getElem?.mpr hv)
      · refine hconditions b ((Arena.mem_ids _ _).mpr ?_) v hv
        cases hb : f.blocks.get? b with
        | none => simp [condition?, terminator?, hb] at hv
        | some x => exact Arena.get?_eq_some_lt hb
    · rintro ⟨hreads, hconditions⟩
      refine ⟨fun i b body hi hbody p hp => ?_, fun b _ v hv => hconditions b v hv⟩
      exact hreads i b body hi hbody p.2 p.1 (List.mem_zipIdx_iff_getElem?.mp hp)

/-- What splitting variables needs to keep the meaning. -/
def varTerms (stage : Stage) (modes : Mode) : Terms :=
  { narrow := True
    flat := False
    derefs := True
    exact := False
    apart := False
    ordered := True
    stage
    modes }

theorem VarReady.sound (h : f.VarReady stage modes vars) (hr : f.Reached) (hv : f.Verified)
    (hdom : f.DominanceRespecting) : f.Sound (varTerms stage modes) vars := by
  refine ⟨⟨hr, hv.small hr.linked⟩, hv.closed, fun i b body hi hbody => ⟨?_, ?_, False.elim,
    False.elim⟩, False.elim, fun _ => hdom⟩
  · intro _ s hs
    obtain ⟨v, hd, hshape⟩ := Option.bind_eq_some_iff.mp hs
    exact h.bits v s ⟨i, b, (hr.linked.defined.iff i v).mp hd, hi⟩ hshape
  · rintro a rfl
    have hcover : (varTerms stage modes).Covers a.kind → a.kind.isDerefAccess := by
      rintro (⟨hfalse, -⟩ | ⟨-, hk⟩)
      · exact hfalse.elim
      · exact hk
    refine ⟨hv.access i b a hi hbody, fun hk => ?_, fun hk => ?_, False.elim, fun _ hk => ?_,
      False.elim, False.elim⟩
    · exact (h.access i b a hi hbody (hcover hk)).1.isSome_iff
    · exact ⟨(h.access i b a hi hbody (hcover hk)).2.1, (h.access i b a hi hbody (hcover hk)).2.2.1⟩
    · exact (h.access i b a hi hbody hk).2.2.2

/-- What every pass keeps. -/
def ioTerms (stage : Stage) (modes : Mode) (apart : Prop) : Terms :=
  { narrow := False
    flat := True
    derefs := True
    exact := True
    apart
    ordered := True
    stage
    modes }

theorem IoReady.sound {apart : Prop} (h : f.IoReady stage modes vars) (hr : f.Reached)
    (hv : f.Verified) (hdom : f.DominanceRespecting) (ha : apart → f.PlacesApart) :
    f.Sound (ioTerms stage modes apart) vars := by
  refine ⟨⟨hr, hv.small hr.linked⟩, hv.closed, fun i b body hi hbody => ⟨False.elim, ?_,
    fun _ => hv.fits i b body hi hbody, fun hT => (ha hT).reads i b body hi hbody⟩,
    fun hT => (ha hT).conditions, fun _ => hdom⟩
  rintro a rfl
  obtain ⟨hresult, hstored, hslot, hchain⟩ := h i b a hi hbody
  have harity := hv.access i b a hi hbody
  refine ⟨harity, fun _ => hresult.isSome_iff, fun _ => ?_, fun _ => hslot, fun _ => hchain,
    fun _ _ s hs => ?_, fun _ _ slot v s hk hv' hs => (hstored slot hk v hv' s hs).2.2⟩
  · by_cases hk : a.kind.hasDest
    · obtain ⟨s, hs⟩ := Option.isSome_iff_exists.mp (hresult.isSome_iff.mpr hk)
      obtain ⟨v, -, hshape⟩ := Option.bind_eq_some_iff.mp hs
      rw [← hresult.width_eq hs]
      exact hr.linked.defined.width v s hshape
    · obtain ⟨slot, hslot, hlt⟩ : ∃ slot, a.kind.storedSlot? = some slot ∧ slot < a.kind.arity := by
        revert hk
        cases a.kind <;> simp [Intrinsic.hasDest, Intrinsic.isStore, Intrinsic.storedSlot?,
          Intrinsic.arity]
      have hsrc : a.srcs[slot]? = some a.srcs[slot] := List.getElem?_eq_getElem (by omega)
      obtain ⟨s, hs⟩ := exists_shape
        (hv.closed.live_src hi hbody (List.mem_of_getElem? hsrc)).hasValue
      obtain ⟨h1, h4, -⟩ := hstored slot hslot _ hsrc s hs
      exact ⟨h1, h4⟩
  · exact hresult.width_eq hs

end Function

end ShaderSSA
