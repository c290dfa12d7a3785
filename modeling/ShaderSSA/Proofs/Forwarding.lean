import ShaderSSA.Proofs.Fusing

/-! Where the readers of a merged pair find their lanes. While the readers of a half move, each
source is what it was or has been forwarded; once nobody reads the half, all that read it have. -/

namespace ShaderSSA

/-- The lanes of a half, selected from the wide value. -/
def Operand.forward (w : ValueId) (h : Half) (read : Nat) (o : Operand) : Operand :=
  if o.value = h.value then ⟨w, o.swizzle.shifted h.offset read⟩ else o

/-- How many lanes are read through a slot. -/
def Alu.read (al : Alu) (dest : Option Shape) (s : Nat) : Nat := (al.op.readWidth? dest s).getD 0

/-- Arithmetic selects from the wide value, and everything else reads the copy `k`. -/
def Body.forward (w : ValueId) (h : Half) (k : ValueId) (dest : Option Shape) : Body → Body
  | .alu al => .alu ⟨al.op, al.srcs.mapIdx fun s => Operand.forward w h (al.read dest s)⟩
  | body => body.mapSrcs fun _ => Function.handOver h.value k

theorem Body.forward_of_other {w k : ValueId} {h : Half} {dest : Option Shape} {body : Body}
    (halu : body.alu? = none) :
    body.forward w h k dest = body.mapSrcs fun _ => Function.handOver h.value k := by
  cases body with
  | alu al => simp [alu?] at halu
  | _ => rfl

/-- A body some of whose sources have been forwarded; no copy is read before it is made. -/
def Body.Moved (w : ValueId) (h : Half) (copy : Option ValueId) (dest : Option Shape)
    (body body' : Body) : Prop :=
  (∃ (al : Alu) (σ : Nat → Operand → Operand), body = .alu al ∧
    body' = .alu ⟨al.op, al.srcs.mapIdx σ⟩ ∧ ∀ s o, al.srcs[s]? = some o →
      σ s o = o ∨ σ s o = o.forward w h (al.read dest s)) ∨
  ∃ ρ : Nat → ValueId → ValueId, body.alu? = none ∧ body' = body.mapSrcs ρ ∧
    ∀ s v, body.srcs[s]? = some v → ρ s v = v ∨ v = h.value ∧ copy = some (ρ s v)

namespace Body.Moved

variable {w k : ValueId} {h : Half} {copy : Option ValueId} {dest : Option Shape}
  {body body' : Body}

theorem refl (body : Body) : body.Moved w h copy dest body := by
  by_cases halu : ∃ al, body = .alu al
  · obtain ⟨al, rfl⟩ := halu
    refine .inl ⟨al, fun _ o => o, rfl, ?_, fun _ _ _ => .inl rfl⟩
    simp [List.mapIdx_eq_zipIdx_map]
  · have hnone : body.alu? = none := by
      cases body <;> simp_all [alu?]
    exact .inr ⟨fun _ v => v, hnone, (mapSrcs_id body).symm, fun _ _ _ => .inl rfl⟩

theorem set_mapIdx {α β : Type} (l : List α) (σ : Nat → α → β) (s : Nat) (x : β) :
    (l.mapIdx σ).set s x = l.mapIdx fun t p => if t = s then x else σ t p := by
  apply List.ext_getElem?
  intro t
  rw [List.getElem?_set, List.getElem?_mapIdx, List.getElem?_mapIdx, List.length_mapIdx]
  by_cases hts : s = t
  · subst hts
    by_cases hlt : s < l.length <;> simp [hlt]
  · simp [hts, Ne.symm hts]

theorem alu_set {al : Alu} {s read : Nat} {o : Operand} (hm : body.Moved w h copy dest (.alu al))
    (hne : h.value ≠ w) (ho : al.srcs[s]? = some o) (hvalue : o.value = h.value)
    (hread : al.op.readWidth? dest s = some read) :
    body.Moved w h copy dest
      (.alu ⟨al.op, al.srcs.set s ⟨w, o.swizzle.shifted h.offset read⟩⟩) := by
  rcases hm with ⟨al₀, σ, rfl, hbody, hσ⟩ | ⟨ρ, halu, hbody, -⟩
  · obtain rfl := Body.alu.inj hbody
    obtain ⟨o₀, ho₀, hσo⟩ : ∃ o₀, al₀.srcs[s]? = some o₀ ∧ σ s o₀ = o := by
      simpa [List.getElem?_mapIdx, Option.map_eq_some_iff] using ho
    have hold : o₀ = o := by
      rcases hσ s o₀ ho₀ with heq | heq
      · exact heq.symm.trans hσo
      · rw [heq, Operand.forward] at hσo
        split at hσo
        · rw [← hσo] at hvalue
          exact absurd hvalue.symm hne
        · exact hσo
    refine .inl ⟨al₀, fun t p => if t = s then ⟨w, o.swizzle.shifted h.offset read⟩ else σ t p,
      rfl, by rw [set_mapIdx], fun t p hp => ?_⟩
    dsimp only
    by_cases hts : t = s
    · subst hts
      obtain rfl : o = p := hold.symm.trans (Option.some.inj (ho₀.symm.trans hp))
      right
      rw [if_pos rfl, Operand.forward, if_pos hvalue, Alu.read, hread, Option.getD_some]
    · rw [if_neg hts]
      exact hσ t p hp
  · have hnone := (alu?_mapSrcs_of_none (g := ρ) halu).trans halu
    simp [← hbody, alu?] at hnone

theorem other_set {s : Nat} (hm : body.Moved w h (some k) dest body')
    (halu : body'.alu? = none) (hs : body'.srcs[s]? = some h.value) :
    body.Moved w h (some k) dest (body'.mapSrcs fun t v => if t = s then k else v) := by
  rcases hm with ⟨al₀, σ, rfl, rfl, hσ⟩ | ⟨ρ, hnone, rfl, hρ⟩
  · simp [alu?] at halu
  · refine .inr ⟨fun t v => if t = s then k else ρ t v, hnone, mapSrcs_mapSrcs .., fun t v hv => ?_⟩
    dsimp only
    by_cases hts : t = s
    · subst hts
      rw [getElem?_srcs_mapSrcs, hv, Option.map_some, Option.some.injEq] at hs
      right
      rw [if_pos rfl]
      rcases hρ t v hv with heq | ⟨heq, hcopy⟩
      · exact ⟨heq.symm.trans hs, rfl⟩
      · exact ⟨heq, rfl⟩
    · rw [if_neg hts]
      exact hρ t v hv

theorem of_none (hm : body.Moved w h none dest body') : body.Moved w h copy dest body' := by
  rcases hm with hm | ⟨ρ, hnone, hbody, hρ⟩
  · exact .inl hm
  · exact .inr ⟨ρ, hnone, hbody, fun s v hv => (hρ s v hv).imp id fun h => by simp at h⟩

theorem alu?_isSome (hm : body.Moved w h copy dest body') :
    body'.alu?.isSome = body.alu?.isSome := by
  rcases hm with ⟨al₀, σ, rfl, rfl, -⟩ | ⟨ρ, hnone, rfl, -⟩
  · rfl
  · rw [alu?_mapSrcs_of_none hnone]

theorem srcs_of_ne {s : Nat} {v : ValueId} (hm : body.Moved w h copy dest body')
    (hs : body.srcs[s]? = some v) (hne : v ≠ h.value) : body'.srcs[s]? = some v := by
  rcases hm with ⟨al, σ, rfl, rfl, hσ⟩ | ⟨ρ, -, rfl, hρ⟩
  · obtain ⟨o, ho, rfl⟩ : ∃ o, al.srcs[s]? = some o ∧ o.value = v := by
      simpa [srcs, Option.map_eq_some_iff] using hs
    have hsame : σ s o = o := by
      rcases hσ s o ho with heq | heq
      · exact heq
      · rw [heq, Operand.forward, if_neg hne]
    simp [srcs, List.getElem?_mapIdx, ho, hsame]
  · rw [getElem?_srcs_mapSrcs, hs, Option.map_some, (hρ s v hs).resolve_right fun h => hne h.1]

/-- Once the half is read no more, everything that read it has been forwarded. -/
theorem complete (hm : body.Moved w h copy dest body') (hunread : h.value ∉ body'.srcs) :
    body' = body.forward w h (copy.getD h.value) dest ∧
      (body.alu? = none → h.value ∈ body.srcs → copy.isSome) := by
  rcases hm with ⟨al, σ, rfl, rfl, hσ⟩ | ⟨ρ, hnone, rfl, hρ⟩
  · refine ⟨?_, by simp [alu?]⟩
    have hmap : al.srcs.mapIdx σ =
        al.srcs.mapIdx fun s => Operand.forward w h (al.read dest s) := by
      refine List.mapIdx_eq_mapIdx_iff.mpr fun s hs => ?_
      have ho := List.getElem?_eq_getElem hs
      rcases hσ s _ ho with heq | heq
      · have hne : al.srcs[s].value ≠ h.value := by
          intro hval
          refine hunread (List.mem_map.mpr ⟨_, List.mem_of_getElem? (i := s) ?_, hval⟩)
          rw [List.getElem?_mapIdx, ho, Option.map_some, heq]
        rw [heq, Operand.forward, if_neg hne]
      · exact heq
    rw [forward, hmap]
  · have hmoved : ∀ s v, body.srcs[s]? = some v → v = h.value → copy = some (ρ s v) := by
      intro s v hv hval
      rcases hρ s v hv with heq | ⟨-, hcopy⟩
      · refine absurd (List.mem_of_getElem? (i := s) ?_) hunread
        rw [getElem?_srcs_mapSrcs, hv, Option.map_some, heq, hval]
      · exact hcopy
    refine ⟨?_, fun _ hmem => ?_⟩
    · rw [forward_of_other hnone]
      refine mapSrcs_congr fun s v hv => ?_
      rw [Function.handOver]
      by_cases hval : v = h.value
      · rw [if_pos hval, hmoved s v hv hval, Option.getD_some]
      · rw [if_neg hval]
        exact (hρ s v hv).resolve_right fun h => hval h.1
    · obtain ⟨s, hs⟩ := List.getElem?_of_mem hmem
      rw [hmoved s _ hs rfl]
      rfl

end Body.Moved

namespace Rewiring

variable {W : Wide} {h : Half} {f g : Function} {i j n : InstrId} {r r' : Rewiring} {c : BlockId}
  {v : ValueId} {body : Body}

/-- The copy that the steps for a half have left. -/
def trail (r : Rewiring) : List InstrId := if r.copy.isSome then [r.anchor] else []

/-- What the steps for a half have made of `f` so far, where `i` was the anchor. -/
structure Forwarded (W : Wide) (h : Half) (f : Function) (i : InstrId) (r : Rewiring) : Prop where
  body : ∀ j body, f.body? j = some body → ∃ body', r.func.body? j = some body' ∧
    body.Moved W.value h r.copy (f.destShape? j) body'
  dest : ∀ j body, f.body? j = some body → r.func.dest? j = f.dest? j
  home : ∀ j body, f.body? j = some body → r.func.home? j = f.home? j
  shape : ∀ v s, f.shape? v = some s → r.func.shape? v = some s
  blocks : ∀ c, r.func.blockInstrs c =
    (f.blockInstrs c).flatMap fun j => if j = i then i :: r.trail else [j]
  terminator : ∀ c, r.func.terminator? c = f.terminator? c ∨ f.condition? c = some h.value ∧
    ∃ v, r.copy = some v ∧ r.func.terminator? c = (f.terminator? c).map (·.withCondition v)
  anchor : r.copy = none → r.anchor = i
  fresh : ∀ v, r.copy = some v → f.body? r.anchor = none ∧ f.hasValue v = false

theorem expand_self (l : List InstrId) (i : InstrId) :
    (l.flatMap fun j => if j = i then [i] else [j]) = l := by
  have hone : (fun j => if j = i then [i] else [j]) = fun j => [j] := by
    funext j
    by_cases hj : j = i <;> simp [hj]
  rw [hone, List.flatMap_singleton']

namespace Forwarded

theorem start (hr : r.copy = none) : Forwarded W h r.func r.anchor r := by
  refine ⟨fun j body hb => ⟨body, hb, .refl body⟩, fun _ _ _ => rfl, fun _ _ _ => rfl,
    fun _ _ hs => hs, fun c => ?_, fun _ => .inl rfl, fun _ => rfl, by simp [hr]⟩
  simp [trail, hr, expand_self]

theorem destShape (hr : Forwarded W h f i r) (hf : f.Defined) (hb : f.body? j = some body) :
    r.func.destShape? j = f.destShape? j := by
  rw [Function.destShape?, Function.destShape?, hr.dest j body hb]
  cases hd : f.dest? j with
  | none => rfl
  | some v =>
    obtain ⟨x, hx, -⟩ := Option.map_eq_some_iff.mp ((hf.iff j v).mp hd)
    have hs : f.shape? v = some x.shape := by simp [Function.shape?, hx]
    simp [hs, hr.shape v _ hs]

theorem rebodied {r' : Rewiring} (hr : Forwarded W h f i r) (hg : r.func.Rebodied n body r'.func)
    (hcopy : r'.copy = r.copy) (hanchor : r'.anchor = r.anchor)
    (hmoved : ∀ body₀ body', f.body? n = some body₀ → r.func.body? n = some body' →
      body₀.Moved W.value h r.copy (f.destShape? n) body' →
      body₀.Moved W.value h r.copy (f.destShape? n) body) : Forwarded W h f i r' := by
  have htrail : r'.trail = r.trail := by rw [trail, trail, hcopy, hanchor]
  refine ⟨fun j body₀ hb => ?_, ?_, ?_, ?_, ?_, ?_, ?_, ?_⟩
  · obtain ⟨body', hb', hm⟩ := hr.body j body₀ hb
    rw [hg.body, hcopy]
    by_cases hj : j = n
    · subst hj
      exact ⟨body, if_pos rfl, hmoved body₀ body' hb hb' hm⟩
    · exact ⟨body', by rw [if_neg hj, hb'], hm⟩
  · rw [hg.dest]
    exact hr.dest
  · rw [hg.home]
    exact hr.home
  · rw [hg.shape]
    exact hr.shape
  · rw [hg.blocks, htrail]
    exact hr.blocks
  · rw [hg.terminator, hcopy]
    exact hr.terminator
  · rw [hcopy, hanchor]
    exact hr.anchor
  · rw [hcopy, hanchor]
    exact hr.fresh

theorem retested {r' : Rewiring} {b : BlockId} (hr : Forwarded W h f i r)
    (hg : r.func.Retested b v r'.func) (hcopy : r'.copy = r.copy) (hanchor : r'.anchor = r.anchor)
    (hv : r.copy = some v) (hb : r.func.condition? b = some h.value) (hne : v ≠ h.value) :
    Forwarded W h f i r' := by
  have htrail : r'.trail = r.trail := by rw [trail, trail, hcopy, hanchor]
  refine ⟨?_, ?_, ?_, ?_, ?_, fun c => ?_, ?_, ?_⟩
  · rw [hg.body, hcopy]
    exact hr.body
  · rw [hg.dest]
    exact hr.dest
  · rw [hg.home]
    exact hr.home
  · rw [hg.shape]
    exact hr.shape
  · rw [hg.blocks, htrail]
    exact hr.blocks
  · rw [hg.terminator, hcopy]
    by_cases hc : c = b
    · subst hc
      rw [if_pos rfl]
      rcases hr.terminator c with hsame | ⟨hcond, w, hw, hturned⟩
      · refine .inr ⟨?_, v, hv, by rw [hsame]⟩
        rwa [Function.condition?, hsame] at hb
      -- what has turned tests the copy, which is not the half
      · obtain rfl := Option.some.inj (hv.symm.trans hw)
        obtain ⟨t, ht, htest⟩ := Option.bind_eq_some_iff.mp hcond
        rw [Function.condition?, hturned, ht, Option.map_some, Option.bind_some,
          Function.condition?_withCondition htest] at hb
        exact absurd (Option.some.inj hb) hne
    · rw [if_neg hc]
      exact hr.terminator c
  · rw [hcopy, hanchor]
    exact hr.anchor
  · rw [hcopy, hanchor]
    exact hr.fresh

theorem appended {o : Operand} {shape : Shape} (hr : Forwarded W h f i r) (hnone : r.copy = none)
    (happ : r.func.Appended r.anchor n (.alu ⟨.mov, [o]⟩) shape v g) :
    Forwarded W h f i ⟨g, n, r.rewired, r.copies + 1, some v⟩ := by
  have hnew : r.func.body? n = none := by simp [Function.body?, happ.fresh]
  have hold : ∀ j body, f.body? j = some body → j ≠ n := by
    rintro j body hb rfl
    obtain ⟨body', hb', -⟩ := hr.body j body hb
    simp [hnew] at hb'
  have hunknown : f.hasValue v = false := by
    by_contra hknown
    obtain ⟨x, hx⟩ := Function.hasValue_iff.mp (by simpa using hknown)
    have hs := hr.shape v x.shape (by simp [Function.shape?, hx])
    have hunknown := happ.unknown
    simp [Function.hasValue_of_shape hs] at hunknown
  refine ⟨fun j body hb => ?_, fun j body hb => ?_, fun j body hb => ?_, fun w s hs => ?_,
    fun c => ?_, fun c => ?_, by simp, ?_⟩
  · obtain ⟨body', hb', hm⟩ := hr.body j body hb
    rw [hnone] at hm
    exact ⟨body', by rw [happ.body, if_neg (hold j body hb), hb'], hm.of_none⟩
  · rw [happ.dest, if_neg (hold j body hb), hr.dest j body hb]
  · rw [happ.home, if_neg (hold j body hb), hr.home j body hb]
  · exact happ.shape_old (hr.shape w s hs)
  · have hsame : r.func.blockInstrs c = f.blockInstrs c := by
      rw [hr.blocks, trail, hnone]
      exact expand_self _ i
    rw [happ.blocks, hsame, hr.anchor hnone]
    rfl
  · rw [happ.terminator]
    refine (hr.terminator c).imp id ?_
    rintro ⟨-, w, hw, -⟩
    simp [hnone] at hw
  · intro w hw
    obtain rfl := Option.some.inj hw
    refine ⟨?_, hunknown⟩
    cases hb : f.body? n with
    | none => rfl
    | some body => exact absurd rfl (hold n body hb)

theorem reads_of_ne (hr : Forwarded W h f i r) {u : Use} (hu : f.reads? u = some v)
    (hne : v ≠ h.value) : r.func.reads? u = some v := by
  obtain ⟨b, body, hb, hbody, hs⟩ := Function.reads?_iff.mp hu
  obtain ⟨body', hbody', hm⟩ := hr.body _ _ hbody
  exact Function.reads?_iff.mpr
    ⟨b, body', (hr.home _ _ hbody).trans hb, hbody', hm.srcs_of_ne hs hne⟩

theorem condition_of_ne (hr : Forwarded W h f i r) (hc : f.condition? c = some v)
    (hne : v ≠ h.value) : r.func.condition? c = some v := by
  rcases hr.terminator c with hsame | ⟨hcond, -⟩
  · rwa [Function.condition?, hsame]
  · exact absurd (Option.some.inj (hc.symm.trans hcond)) hne

/-- Once the half is read no more, every body is the forwarded one. -/
theorem body_eq (hr : Forwarded W h f i r) (hunread : ∀ u, r.func.reads? u ≠ some h.value)
    (hj : f.home? j = some c) (hb : f.body? j = some body) :
    r.func.body? j =
        some (body.forward W.value h (r.copy.getD h.value) (f.destShape? j)) ∧
      (body.alu? = none → h.value ∈ body.srcs → r.copy.isSome) := by
  obtain ⟨body', hb', hm⟩ := hr.body j body hb
  have hnot : h.value ∉ body'.srcs := by
    intro hmem
    obtain ⟨s, hs⟩ := Function.reads?_of_mem ((hr.home j body hb).trans hj) hb' hmem
    exact hunread _ hs
  obtain ⟨rfl, hcopy⟩ := hm.complete hnot
  exact ⟨hb', hcopy⟩

theorem terminator_eq (hr : Forwarded W h f i r)
    (huntested : ∀ c, r.func.condition? c ≠ some h.value) (c : BlockId) :
    r.func.terminator? c = (f.terminator? c).map
        (·.rename (Function.handOver h.value (r.copy.getD h.value))) ∧
      (f.condition? c = some h.value → r.copy.isSome) := by
  rcases hr.terminator c with hsame | ⟨hcond, v, hv, hturned⟩
  · have hnot : f.condition? c ≠ some h.value := by
      have hc := huntested c
      rwa [Function.condition?, hsame] at hc
    refine ⟨?_, fun hc => absurd hc hnot⟩
    rw [hsame]
    cases ht : f.terminator? c with
    | none => rfl
    | some t =>
      have htest : t.condition? ≠ some h.value := by simpa [Function.condition?, ht] using hnot
      cases t with
      | branch w yes no =>
        have hne : w ≠ h.value := by simpa [Terminator.condition?] using htest
        simp [Terminator.rename, Function.handOver, hne]
      | _ => rfl
  · refine ⟨?_, fun _ => by simp [hv]⟩
    obtain ⟨t, ht, htest⟩ := Option.bind_eq_some_iff.mp hcond
    rw [hturned, ht, hv]
    cases t with
    | branch w yes no =>
      obtain rfl : w = h.value := by simpa [Terminator.condition?] using htest
      simp [Terminator.rename, Terminator.withCondition, Function.handOver]
    | _ => simp [Terminator.condition?] at htest

end Forwarded

theorem Step.forwarded (hs : Step W h r r') (hst : Steady W h r) (hf : f.Defined)
    (hr : Forwarded W h f i r) : Forwarded W h f i r' := by
  cases hs with
  | @alu u al o read g hu hbody ho hread hg htidy =>
    have hvalue : o.value = h.value := by
      simpa [Body.srcs, ho] using Function.srcs_of_reads hu hbody
    refine hr.rebodied hg rfl rfl fun body₀ body' hb hb' hm => ?_
    obtain rfl := Option.some.inj (hbody.symm.trans hb')
    rw [hr.destShape hf hb] at hread
    exact hm.alu_set hst.offers.ne ho hvalue hread
  | @other u body v g hv hu hbody halu hg htidy =>
    refine hr.rebodied hg rfl rfl fun body₀ body' hb hb' hm => ?_
    obtain rfl := Option.some.inj (hbody.symm.trans hb')
    rw [hv] at hm ⊢
    exact hm.other_set halu (Function.srcs_of_reads hu hbody)
  | @branch b v g hv hb hg htidy => exact hr.retested hg rfl rfl hv hb (hst.copy v hv).2
  | copy hnone happ hvalue htake htidy => exact hr.appended hnone happ

theorem Steps.forwarded (hs : Steps W h r r') (hst : Steady W h r) (hf : r.func.Defined)
    (hnone : r.copy = none) : Forwarded W h r.func r.anchor r' := by
  induction hs with
  | refl => exact .start hnone
  | tail hs hstep ih => exact hstep.forwarded (Steps.steady hs hst) hf ih

end Rewiring

end ShaderSSA
