import ShaderSSA.Proofs.Building
import ShaderSSA.Proofs.Halves
import ShaderSSA.Proofs.Retargeting

/-! Moving the readers of a half to the wide result, one step for each. Arithmetic readers select
other lanes and the rest reads a copy; in the end nobody reads the half. -/

namespace ShaderSSA

/-- The lanes that are read, moved up. -/
def Swizzle.shifted (s : Swizzle) (offset read : Nat) : Swizzle :=
  Vector.ofFn fun k => if k < read then s.get k + offset else s.get k

namespace Swizzle

variable {s : Swizzle} {offset read : Nat}

theorem shift_ok (hr : read ≤ 4) (h : ∀ k ∈ s.toList.take read, k + offset < 256) :
    s.shift offset read = .ok (s.shifted offset read) := by
  have hl : s.lanes read = .ok (s.toList.take read) := lanes_eq_ok.mpr ⟨hr, rfl⟩
  have hall : (s.toList.take read).all (· + offset < 256) = true := by
    simpa only [List.all_eq_true, decide_eq_true_eq] using h
  simp only [shift, hl, ok_bind, hall, if_true]
  rfl

theorem shifted_zero : s.shifted 0 read = s := by
  apply Vector.ext
  intro k hk
  simp [shifted, Vector.get]

theorem take_shifted :
    (s.shifted offset read).toList.take read = (s.toList.take read).map (· + offset) := by
  apply List.ext_getElem?
  intro k
  by_cases hk : k < read
  · by_cases hk4 : k < 4
    · simp [shifted, hk, hk4, Vector.get]
    · simp [shifted, hk, hk4]
  · simp [hk]

end Swizzle

theorem Body.mapSrcs_alu {a : Alu} {s : Nat} {o : Operand} (ho : a.srcs[s]? = some o)
    (v : ValueId) : (Body.alu a).mapSrcs (fun k w => if k = s then v else w) =
      .alu ⟨a.op, a.srcs.set s ⟨v, o.swizzle⟩⟩ := by
  have hlist : (a.srcs.mapIdx fun k o => ({ o with value := if k = s then v else o.value } :
      Operand)) = a.srcs.set s ⟨v, o.swizzle⟩ := by
    apply List.ext_getElem?
    intro k
    rw [List.getElem?_mapIdx, List.getElem?_set]
    by_cases hk : s = k
    · subst hk
      obtain ⟨hlt, rfl⟩ := List.getElem?_eq_some_iff.mp ho
      simp [hlt]
    · have hk' : ¬ k = s := fun h => hk h.symm
      simp [hk, hk']
  simp only [mapSrcs, hlist]

variable {f g : Function} {W : Wide} {h : Half} {u : Use} {v w : ValueId} {n anchor : InstrId}
  {o : Operand} {shape : Shape} {body body' : Body}

theorem Function.BodyFits.mapSrcs {dest : Option Shape} {ρ : Nat → ValueId → ValueId}
    (hfit : f.BodyFits dest body) (halu : body.alu? = none) : f.BodyFits dest (body.mapSrcs ρ) := by
  cases body with
  | alu al => simp [Body.alu?] at halu
  | access ac =>
    simpa only [Body.mapSrcs, Function.BodyFits, Access.Fits, List.length_mapIdx] using hfit
  | deref de =>
    obtain ⟨step, mode, type⟩ := de
    cases step <;> trivial
  | _ => trivial

theorem Function.Rebodied.turned_reads {b : BlockId} (hb : f.Rebodied u.instr body' g)
    (hbody : f.body? u.instr = some body) (hhome : f.home? u.instr = some b)
    (hsrcs : ∀ s : Nat, body'.srcs[s]? = if s = u.slot then some v else body.srcs[s]?) (u' : Use) :
    g.reads? u' = if u' = u then some v else f.reads? u' := by
  by_cases hinstr : u'.instr = u.instr
  · have hself : g.reads? u' = body'.srcs[u'.slot]? := by
      rw [← hb.reads_self hhome, ← hinstr]
    have hself' : f.reads? u' = body.srcs[u'.slot]? := by
      simp [Function.reads?, Function.srcs?_eq_map, hinstr, hhome, hbody]
    have hslot : u'.slot = u.slot ↔ u' = u := by
      cases u'
      cases u
      simp_all
    simp only [hself, hself', hsrcs, hslot]
  · have hne : u' ≠ u := fun he => hinstr (by rw [he])
    rw [hb.reads_other hinstr, if_neg hne]

theorem Function.Rebodied.alu_reads {b : BlockId} {al : Alu} {o' : Operand}
    (hb : f.Rebodied u.instr (.alu ⟨al.op, al.srcs.set u.slot o'⟩) g)
    (hbody : f.body? u.instr = some (.alu al)) (hhome : f.home? u.instr = some b)
    (ho : al.srcs[u.slot]? = some o) (u' : Use) :
    g.reads? u' = if u' = u then some o'.value else f.reads? u' := by
  refine hb.turned_reads hbody hhome (fun s => ?_) u'
  have hlt : u.slot < al.srcs.length := (List.getElem?_eq_some_iff.mp ho).1
  simp only [Body.srcs, List.map_set, List.getElem?_set, List.length_map]
  by_cases hs : u.slot = s
  · subst hs
    simp [hlt]
  · simp [hs, Ne.symm hs]

theorem Function.Rebodied.other_reads {b : BlockId}
    (hb : f.Rebodied u.instr (body.mapSrcs fun s w => if s = u.slot then v else w) g)
    (hbody : f.body? u.instr = some body) (hhome : f.home? u.instr = some b)
    (hu : f.reads? u = some w) (u' : Use) :
    g.reads? u' = if u' = u then some v else f.reads? u' := by
  refine hb.turned_reads hbody hhome (fun s => ?_) u'
  rw [Body.getElem?_srcs_mapSrcs]
  by_cases hs : s = u.slot
  · simp [hs, Function.srcs_of_reads hu hbody]
  · simp [hs]

theorem Function.Appended.copy_reads (happ : f.Appended anchor n (.alu ⟨.mov, [o]⟩) shape v g)
    (hw : w ≠ o.value) : g.reads? u = some w ↔ f.reads? u = some w := by
  by_cases hu : u.instr = n
  · refine ⟨fun hread => ?_, fun hread => ?_⟩
    · obtain ⟨_, body, -, hbody, hmem⟩ := Function.reads?_iff.mp hread
      obtain rfl : Body.alu ⟨.mov, [o]⟩ = body := by simpa [happ.body, hu] using hbody
      exact absurd (by simpa [Body.srcs] using List.mem_of_getElem? hmem) hw
    · obtain ⟨b, _, hb, -⟩ := Function.reads?_iff.mp hread
      exact absurd hu (happ.ne_new hb)
  · rw [happ.reads_old hu]

theorem Function.Appended.condition (happ : f.Appended anchor n body shape v g) :
    g.condition? = f.condition? := by
  funext c
  simp only [Function.condition?, happ.terminator]

theorem Function.lanesRead_ok {i : InstrId} {al : Alu} {s read : Nat} (hf : f.Tidy)
    (hbody : f.body? i = some (.alu al)) (hread : al.op.readWidth? (f.destShape? i) s = some read) :
    f.lanesRead i s = .ok read := by
  obtain ⟨x, hx, hxb⟩ := Option.map_eq_some_iff.mp hbody
  have hl := Machine.toOption_lanesRead s hx hxb (Machine.dest_known hf.linked.defined hx)
  rw [hread] at hl
  exact toOption_eq_some.mp hl

/-- The wide instruction stands in the function, and its value has room for the half. -/
structure Wide.Offers (W : Wide) (f : Function) (h : Half) : Prop where
  home : ∃ b, f.home? W.instr = some b
  dest : f.dest? W.instr = some W.value
  shape : f.shape? W.value = some ⟨W.width, W.bits⟩
  half : f.shape? h.value = some ⟨h.width, W.bits⟩
  fit : h.offset + h.width ≤ W.width
  narrow : h.width < W.width

namespace Wide.Offers

theorem ne (ho : W.Offers f h) : h.value ≠ W.value := by
  intro he
  have hshape := ho.half
  have hnarrow := ho.narrow
  rw [he, ho.shape, Option.some.injEq, Shape.mk.injEq] at hshape
  omega

theorem hasValue (ho : W.Offers f h) : f.hasValue W.value := Function.hasValue_of_shape ho.shape

theorem live (ho : W.Offers f h) (hf : f.Defined) : f.Live W.value := by
  obtain ⟨b, hb⟩ := ho.home
  exact ⟨W.instr, b, (hf.iff W.instr W.value).mp ho.dest, hb⟩

theorem width_le (ho : W.Offers f h) (hf : f.Defined) : W.width ≤ 4 :=
  (hf.width W.value _ ho.shape).2

theorem reshaped (ho : W.Offers f h) (hr : f.Reshaped g) : W.Offers g h :=
  ⟨by rw [hr.home]; exact ho.home, by rw [hr.dest, ho.dest], by rw [hr.shape, ho.shape],
    by rw [hr.shape, ho.half], ho.fit, ho.narrow⟩

theorem appended (ho : W.Offers f h) (happ : f.Appended anchor n body shape v g) :
    W.Offers g h := by
  obtain ⟨b, hb⟩ := ho.home
  exact ⟨⟨b, happ.home_old hb⟩, by rw [happ.dest, if_neg (happ.ne_new hb), ho.dest],
    happ.shape_old ho.shape, happ.shape_old ho.half, ho.fit, ho.narrow⟩

theorem lanes (ho : W.Offers f h) {s : Swizzle} {read : Nat}
    (hl : ∀ k ∈ s.toList.take read, k < h.width) :
    ∀ k ∈ (s.shifted h.offset read).toList.take read, k < W.width := by
  intro k hk
  rw [Swizzle.take_shifted, List.mem_map] at hk
  obtain ⟨k', hk', rfl⟩ := hk
  have hlt := hl k' hk'
  have hfit := ho.fit
  omega

theorem lanes_half (ho : W.Offers f h) {dest : Option Shape} {al : Alu} {s read : Nat}
    (hfit : f.AluFits dest al) (hs : al.srcs[s]? = some o) (hvalue : o.value = h.value)
    (hread : al.op.readWidth? dest s = some read) :
    read ≤ 4 ∧ ∀ k ∈ o.swizzle.toList.take read, k < h.width := by
  obtain ⟨m, shape, hm, hshape, hm4, hlanes⟩ := hfit.2 s o hs
  obtain rfl : m = read := by simpa [hm] using hread
  rw [hvalue, ho.half] at hshape
  obtain rfl := Option.some.inj hshape
  exact ⟨hm4, hlanes⟩

theorem fits (ho : W.Offers f h) {dest : Option Shape} {al : Alu} {s read : Nat}
    (hfit : f.AluFits dest al) (hs : al.srcs[s]? = some o) (hvalue : o.value = h.value)
    (hread : al.op.readWidth? dest s = some read) :
    f.AluFits dest ⟨al.op, al.srcs.set s ⟨W.value, o.swizzle.shifted h.offset read⟩⟩ := by
  obtain ⟨h4, hlanes⟩ := ho.lanes_half hfit hs hvalue hread
  refine ⟨by simpa using hfit.1, fun slot o' ho' => ?_⟩
  by_cases hslot : s = slot
  · subst hslot
    have hlt : s < al.srcs.length := (List.getElem?_eq_some_iff.mp hs).1
    obtain rfl : (⟨W.value, o.swizzle.shifted h.offset read⟩ : Operand) = o' := by
      simpa [List.getElem?_set, hlt] using ho'
    exact ⟨read, _, hread, ho.shape, h4, ho.lanes hlanes⟩
  · rw [List.getElem?_set, if_neg hslot] at ho'
    exact hfit.2 slot o' ho'

theorem fits_copy (ho : W.Offers f h) (hf : f.Defined) (hvalue : o.value = W.value)
    (htake : o.swizzle.toList.take h.width = (List.range h.width).map (h.offset + ·)) :
    f.AluFits (some ⟨h.width, W.bits⟩) ⟨.mov, [o]⟩ := by
  have h4 := ho.width_le hf
  have hnarrow := ho.narrow
  refine ⟨rfl, fun s p hp => ?_⟩
  obtain ⟨rfl, rfl⟩ : s = 0 ∧ o = p := by
    cases s with
    | zero => exact ⟨rfl, by simpa using hp⟩
    | succ s => simp at hp
  refine ⟨h.width, _, rfl, hvalue ▸ ho.shape, by omega, fun k hk => ?_⟩
  rw [htake, List.mem_map] at hk
  obtain ⟨k', hk', rfl⟩ := hk
  have hlt := List.mem_range.mp hk'
  have hfit := ho.fit
  simp only
  omega

theorem live_copy (ho : W.Offers f h) (hf : f.Defined) (hvalue : o.value = W.value) :
    ∀ w ∈ (Body.alu ⟨.mov, [o]⟩).srcs, f.Live w := by
  intro w hw
  obtain rfl : w = W.value := by simpa [Body.srcs, hvalue] using hw
  exact ho.live hf

theorem copy_ok (ho : W.Offers f h) (hf : f.Tidy) (hv : f.Verified) {b : BlockId}
    (ha : f.home? anchor = some b) :
    ∃ n v o g, f.build (.after anchor)
        (Build.swizzle W.value ((List.range h.width).map (h.offset + ·))) = .ok (v, g) ∧
      f.Appended anchor n (.alu ⟨.mov, [o]⟩) ⟨h.width, W.bits⟩ v g ∧ g.Tidy ∧
      o.value = W.value ∧
      o.swizzle.toList.take h.width = (List.range h.width).map (h.offset + ·) := by
  have hdef := hf.linked.defined
  have h4 := ho.width_le hdef
  have hnarrow := ho.narrow
  have h1 : 1 ≤ h.width := (hdef.width h.value _ ho.half).1
  have hlen : ((List.range h.width).map (h.offset + ·)).length = h.width := by simp
  obtain ⟨o, hselect, hvalue, htake⟩ :=
    Operand.select_eq_ok (v := W.value) (h1.trans_eq hlen.symm) (by omega)
  rw [hlen] at htake
  obtain ⟨n, v, g, hins, hg, -, happ⟩ := Function.appendAlu_ok hf hv ha (ho.live_copy hdef hvalue)
    (ho.fits_copy hdef hvalue htake) ⟨h1, by simp only; omega⟩
  refine ⟨n, v, o, g, ?_, happ, hg, hvalue, htake⟩
  have hne : (List.range h.width).map (h.offset + ·) ≠ List.range W.width := by
    intro he
    have hl := congrArg List.length he
    simp only [List.length_map, List.length_range] at hl
    omega
  have hdest : g.dest? n = some v := by simp [happ.dest]
  have hrun := Build.insertValue_run (Build.insert_run hins) hdest
  have hshape : f.shape? o.value = some ⟨W.width, W.bits⟩ := hvalue ▸ ho.shape
  have hswizzle : (Build.swizzle W.value ((List.range h.width).map (h.offset + ·))).run
      ⟨f, .after anchor⟩ = .ok (v, ⟨g, .after n⟩) := by
    simp only [Build.swizzle, StateT.run_bind, Build.shape_run ho.shape, ok_bind, hne,
      if_false, hselect, lift_ok_bind, Build.mov, Build.aluSwizzled, List.getLast?_singleton,
      Build.shape_run hshape, hlen]
    exact hrun
  simp only [Function.build, hswizzle, ok_bind]
  rfl

end Wide.Offers

namespace Wide.Copies

theorem reshaped (hc : W.Copies f h n v) (hr : f.Reshaped g) (hbody : g.body? n = f.body? n) :
    W.Copies g h n v :=
  ⟨by rw [hbody]; exact hc.body, by rw [hr.dest, hc.dest], by rw [hr.shape, hc.shape]⟩

theorem ne_reader (hc : W.Copies f h n v) (hu : f.reads? u = some w) (hw : w ≠ W.value) :
    n ≠ u.instr := by
  rintro rfl
  obtain ⟨o, hbody, ho, -⟩ := hc.body
  refine hw ?_
  rw [← ho]
  simpa [Body.srcs] using List.mem_of_getElem? (Function.srcs_of_reads hu hbody)

end Wide.Copies

namespace Rewiring

variable {r r' : Rewiring} {us : List Use} {bs : List BlockId} {b : BlockId}

/-- One reader of the half turns to the wide value or to the copy, or the copy is made. -/
inductive Step (W : Wide) (h : Half) : Rewiring → Rewiring → Prop
  | alu {r : Rewiring} {u : Use} {al : Alu} {o : Operand} {read : Nat} {g : Function} :
      r.func.reads? u = some h.value → r.func.body? u.instr = some (.alu al) →
      al.srcs[u.slot]? = some o →
      al.op.readWidth? (r.func.destShape? u.instr) u.slot = some read →
      r.func.Rebodied u.instr (.alu ⟨al.op, al.srcs.set u.slot
        ⟨W.value, o.swizzle.shifted h.offset read⟩⟩) g → g.Tidy →
      Step W h r { r with
        func := g
        rewired := if u.instr ∈ r.rewired then r.rewired else r.rewired ++ [u.instr] }
  | other {r : Rewiring} {u : Use} {body : Body} {v : ValueId} {g : Function} :
      r.copy = some v → r.func.reads? u = some h.value → r.func.body? u.instr = some body →
      body.alu? = none →
      r.func.Rebodied u.instr (body.mapSrcs fun s w => if s = u.slot then v else w) g → g.Tidy →
      Step W h r { r with func := g }
  | branch {r : Rewiring} {b : BlockId} {v : ValueId} {g : Function} :
      r.copy = some v → r.func.condition? b = some h.value → r.func.Retested b v g → g.Tidy →
      Step W h r { r with func := g }
  | copy {r : Rewiring} {n : InstrId} {v : ValueId} {o : Operand} {g : Function} :
      r.copy = none → r.func.Appended r.anchor n (.alu ⟨.mov, [o]⟩) ⟨h.width, W.bits⟩ v g →
      o.value = W.value →
      o.swizzle.toList.take h.width = (List.range h.width).map (h.offset + ·) → g.Tidy →
      Step W h r ⟨g, n, r.rewired, r.copies + 1, some v⟩

def Steps (W : Wide) (h : Half) : Rewiring → Rewiring → Prop := Relation.ReflTransGen (Step W h)

/-- What every step keeps: the anchor is the copy, once there is one. -/
structure Steady (W : Wide) (h : Half) (r : Rewiring) : Prop where
  tidy : r.func.Tidy
  verified : r.func.Verified
  offers : W.Offers r.func h
  anchored : ∃ b, r.func.home? r.anchor = some b
  copy : ∀ v, r.copy = some v → W.Copies r.func h r.anchor v ∧ v ≠ h.value

theorem Steady.live_copy (hr : Steady W h r) (hv : r.copy = some v) : r.func.Live v := by
  obtain ⟨b, hb⟩ := hr.anchored
  exact ⟨r.anchor, b, (hr.tidy.linked.defined.iff r.anchor v).mp (hr.copy v hv).1.dest, hb⟩

theorem Step.offers {k : Half} (hs : Step W h r r') (ho : W.Offers r.func k) :
    W.Offers r'.func k := by
  cases hs with
  | alu _ _ _ _ hg _ => exact ho.reshaped hg.toReshaped
  | other _ _ _ _ hg _ => exact ho.reshaped hg.toReshaped
  | branch _ _ hg _ => exact ho.reshaped hg.toReshaped
  | copy _ happ _ _ _ => exact ho.appended happ

theorem Step.steady (hs : Step W h r r') (hr : Steady W h r) : Steady W h r' := by
  have hoffers := hs.offers hr.offers
  have hdef := hr.tidy.linked.defined
  have hkept : ∀ {g : Function}, r.func.Reshaped g → g.body? r.anchor = r.func.body? r.anchor →
      ∀ v, r.copy = some v → W.Copies g h r.anchor v ∧ v ≠ h.value := by
    intro g hg hbody v hv
    exact ⟨(hr.copy v hv).1.reshaped hg hbody, (hr.copy v hv).2⟩
  have hsrcs : ∀ {u : Use} {body : Body}, r.func.reads? u = some h.value →
      r.func.body? u.instr = some body → ∀ w ∈ body.srcs, r.func.Live w := by
    intro u body hu hbody w hw
    obtain ⟨b, _, hb, -⟩ := Function.reads?_iff.mp hu
    obtain ⟨s, hread⟩ := Function.reads?_of_mem hb hbody hw
    exact hr.verified.closed.source _ w hread
  have hother : ∀ {u : Use} {body : Body} {g : Function}, r.func.reads? u = some h.value →
      r.func.Rebodied u.instr body g → ∀ v, r.copy = some v →
      W.Copies g h r.anchor v ∧ v ≠ h.value := by
    intro u body g hu hg v hv
    refine hkept hg.toReshaped ?_ v hv
    rw [hg.body, if_neg ((hr.copy v hv).1.ne_reader hu hr.offers.ne)]
  cases hs with
  | @alu u al o read g hu hbody ho hread hg htidy =>
    obtain ⟨b, _, hb, hbody', hsrc⟩ := Function.reads?_iff.mp hu
    obtain rfl := Option.some.inj (hbody.symm.trans hbody')
    have hvalue : o.value = h.value := by simpa [Body.srcs, ho] using hsrc
    have hfits := hr.offers.fits (hr.verified.alu u.instr b al hb hbody) ho hvalue hread
    refine ⟨htidy, hg.verified hr.verified hfits fun w hw => ?_, hoffers,
      by rw [hg.home]; exact hr.anchored, hother hu hg⟩
    simp only [Body.srcs, List.map_set] at hw
    rcases List.mem_or_eq_of_mem_set hw with hold | rfl
    · exact hsrcs hu hbody w hold
    · exact hr.offers.live hdef
  | @other u body v g hv hu hbody halu hg htidy =>
    obtain ⟨b, _, hb, -⟩ := Function.reads?_iff.mp hu
    have hfits := hr.verified.fits u.instr b body hb hbody
    refine ⟨htidy, hg.verified hr.verified (hfits.mapSrcs halu) fun w hw => ?_, hoffers,
      by rw [hg.home]; exact hr.anchored, hother hu hg⟩
    obtain ⟨s, hw⟩ := List.getElem?_of_mem hw
    rw [Body.getElem?_srcs_mapSrcs, Option.map_eq_some_iff] at hw
    obtain ⟨w', hw', rfl⟩ := hw
    split
    · exact hr.live_copy hv
    · exact hsrcs hu hbody w' (List.mem_of_getElem? hw')
  | @branch b v g hv hb hg htidy =>
    exact ⟨htidy, hg.verified hr.verified hb (hr.live_copy hv), hoffers,
      by rw [hg.home]; exact hr.anchored, hkept hg.toReshaped (by rw [hg.body])⟩
  | @copy n v o g hnone happ hvalue htake htidy =>
    obtain ⟨b, hb⟩ := hr.anchored
    refine ⟨htidy, happ.verified hr.tidy hr.verified (hr.offers.live_copy hdef hvalue)
      (hr.offers.fits_copy hdef hvalue htake), hoffers, ⟨b, ?_⟩, ?_⟩
    · rw [happ.home, if_pos rfl, hb]
    · rintro _ ⟨rfl⟩
      exact ⟨⟨⟨o, by simp [happ.body], hvalue, htake⟩, by simp [happ.dest], by simp [happ.shape]⟩,
        (happ.ne_value (Function.hasValue_of_shape hr.offers.half)).symm⟩

theorem Steps.offers {k : Half} (hs : Steps W h r r') (ho : W.Offers r.func k) :
    W.Offers r'.func k := by
  induction hs with
  | refl => exact ho
  | tail _ hstep ih => exact hstep.offers ih

theorem Steps.steady (hs : Steps W h r r') (hr : Steady W h r) : Steady W h r' := by
  induction hs with
  | refl => exact hr
  | tail _ hstep ih => exact hstep.steady ih

/-- Nobody reads `w`, and it is not a copy that is about to be read. -/
structure Clear (w : ValueId) (r : Rewiring) : Prop where
  known : r.func.hasValue w
  copy : r.copy ≠ some w
  unread : ∀ u, r.func.reads? u ≠ some w
  untested : ∀ c, r.func.condition? c ≠ some w

theorem Step.clear (hs : Step W h r r') (hw : w ≠ W.value) (hc : Clear w r) : Clear w r' := by
  obtain ⟨x, hx⟩ := Function.hasValue_iff.mp hc.known
  have hshape : r.func.shape? w = some x.shape := by simp [Function.shape?, hx]
  have hknown : ∀ {g : Function}, r.func.Reshaped g → g.hasValue w :=
    fun hg => Function.hasValue_of_shape (hg.shape ▸ hshape)
  cases hs with
  | @alu u al o read g hu hbody ho hread hg htidy =>
    obtain ⟨b, _, hb, -⟩ := Function.reads?_iff.mp hu
    refine ⟨hknown hg.toReshaped, hc.copy, fun u' => ?_, by rw [hg.condition]; exact hc.untested⟩
    rw [hg.alu_reads hbody hb ho]
    split
    · exact fun he => hw (Option.some.inj he).symm
    · exact hc.unread u'
  | @other u body v g hv hu hbody halu hg htidy =>
    obtain ⟨b, _, hb, -⟩ := Function.reads?_iff.mp hu
    refine ⟨hknown hg.toReshaped, hc.copy, fun u' => ?_, by rw [hg.condition]; exact hc.untested⟩
    rw [hg.other_reads hbody hb hu]
    split
    · exact fun he => hc.copy (hv.trans he)
    · exact hc.unread u'
  | @branch b v g hv hb hg htidy =>
    refine ⟨hknown hg.toReshaped, hc.copy, by rw [hg.reads]; exact hc.unread, fun c => ?_⟩
    rw [hg.condition hb]
    split
    · exact fun he => hc.copy (hv.trans he)
    · exact hc.untested c
  | @copy n v o g hnone happ hvalue htake htidy =>
    refine ⟨Function.hasValue_of_shape (happ.shape_old hshape), fun he => ?_, fun u => ?_,
      by rw [happ.condition]; exact hc.untested⟩
    · exact happ.ne_value hc.known (Option.some.inj he).symm
    · rw [Ne, happ.copy_reads (hvalue ▸ hw)]
      exact hc.unread u

theorem Steps.clear (hs : Steps W h r r') (hw : w ≠ W.value) (hc : Clear w r) : Clear w r' := by
  induction hs with
  | refl => exact hc
  | tail _ hstep ih => exact hstep.clear hw ih

/-- On the way through the readers of a half: the uses `us` and the branches `bs` are left. -/
structure Halfway (W : Wide) (h : Half) (us : List Use) (bs : List BlockId) (r : Rewiring) : Prop
    extends Steady W h r where
  reads : ∀ u, r.func.reads? u = some h.value ↔ u ∈ us
  conditions : ∀ c, r.func.condition? c = some h.value ↔ c ∈ bs

theorem Halfway.copied (hr : Halfway W h us bs r) :
    ∃ v r', r.copied W.value h = .ok (v, r') ∧ Steps W h r r' ∧ Halfway W h us bs r' ∧
      r'.copy = some v ∧ ∀ j b, r.func.home? j = some b → r'.func.body? j = r.func.body? j := by
  cases hcopy : r.copy with
  | some v =>
    refine ⟨v, r, ?_, .refl, hr, hcopy, fun _ _ _ => rfl⟩
    simp only [Rewiring.copied, hcopy]
    rfl
  | none =>
    obtain ⟨b, hb⟩ := hr.anchored
    obtain ⟨n, v, o, g, hbuild, happ, hg, hvalue, htake⟩ :=
      hr.offers.copy_ok hr.tidy hr.verified hb
    have hne : v ≠ W.value := (happ.ne_value hr.offers.hasValue).symm
    have hsource : g.source? v = some n := by simp [happ.source]
    obtain ⟨x, hx, hxs⟩ := Option.map_eq_some_iff.mp hsource
    have hget : g.value v = .ok x := Function.value_eq_ok.mpr hx
    have hstep : Step W h r ⟨g, n, r.rewired, r.copies + 1, some v⟩ :=
      .copy hcopy happ hvalue htake hg
    refine ⟨v, _, ?_, .single hstep, ⟨hstep.steady hr.toSteady, fun u => ?_, ?_⟩, rfl,
      fun j c hj => by rw [happ.body, if_neg (happ.ne_new hj)]⟩
    · simp only [Rewiring.copied, hcopy, hbuild, ok_bind, hne, if_false, hget, hxs, pure_bind]
      rfl
    · rw [happ.copy_reads (hvalue ▸ hr.offers.ne), hr.reads]
    · rw [happ.condition]
      exact hr.conditions

theorem Halfway.turned (hr : Halfway W h (u :: us) bs r) (hnot : u ∉ us)
    (hs : Step W h r r') (hne : v ≠ h.value)
    (hreads : ∀ u', r'.func.reads? u' = if u' = u then some v else r.func.reads? u')
    (hcond : r'.func.condition? = r.func.condition?) : Halfway W h us bs r' := by
  refine ⟨hs.steady hr.toSteady, fun u' => ?_, by rw [hcond]; exact hr.conditions⟩
  rw [hreads]
  split
  · rename_i huu
    rw [huu]
    exact ⟨fun he => absurd (Option.some.inj he) hne, fun hm => absurd hm hnot⟩
  · rename_i huu
    rw [hr.reads]
    simp [huu]

theorem aluReader_ok (hr : Steady W h r) {al : Alu} (hu : r.func.reads? u = some h.value)
    (hbody : r.func.body? u.instr = some (.alu al)) :
    ∃ o read g, al.srcs[u.slot]? = some o ∧
      al.op.readWidth? (r.func.destShape? u.instr) u.slot = some read ∧
      r.func.Rebodied u.instr (.alu ⟨al.op, al.srcs.set u.slot
        ⟨W.value, o.swizzle.shifted h.offset read⟩⟩) g ∧ g.Tidy ∧
      r.aluReader W.value h u = .ok { r with
        func := g
        rewired := if u.instr ∈ r.rewired then r.rewired else r.rewired ++ [u.instr] } := by
  obtain ⟨b, _, hb, hbody', hsrc⟩ := Function.reads?_iff.mp hu
  obtain rfl := Option.some.inj (hbody.symm.trans hbody')
  simp only [Body.srcs, List.getElem?_map, Option.map_eq_some_iff] at hsrc
  obtain ⟨o, ho, hvalue⟩ := hsrc
  have hfit := hr.verified.alu u.instr b al hb hbody
  obtain ⟨read, _, hread, -⟩ := hfit.2 u.slot o ho
  obtain ⟨h4, hlanes⟩ := hr.offers.lanes_half hfit ho hvalue hread
  have hwidth := hr.offers.fit
  have hw4 := hr.offers.width_le hr.tidy.linked.defined
  obtain ⟨g₁, hg₁, htidy, hr₁⟩ :=
    Function.replaceSource_ok hr.tidy hu hbody hr.offers.ne hr.offers.hasValue
  rw [Body.mapSrcs_alu ho] at hr₁
  by_cases hzero : h.offset = 0
  · refine ⟨o, read, g₁, ho, hread, by rwa [hzero, Swizzle.shifted_zero], htidy, ?_⟩
    simp only [Rewiring.aluReader, hg₁, ok_bind, hzero, if_true, pure_bind]
    rfl
  · have hbody₁ : g₁.body? u.instr =
        some (.alu ⟨al.op, al.srcs.set u.slot ⟨W.value, o.swizzle⟩⟩) := by
      simp [hr₁.body]
    have hlt : u.slot < al.srcs.length := (List.getElem?_eq_some_iff.mp ho).1
    have ho₁ : (al.srcs.set u.slot ⟨W.value, o.swizzle⟩)[u.slot]? = some ⟨W.value, o.swizzle⟩ := by
      simp [hlt]
    have hread₁ : g₁.lanesRead u.instr u.slot = .ok read := by
      refine Function.lanesRead_ok htidy hbody₁ ?_
      simpa only [Function.destShape?, hr₁.dest, hr₁.shape] using hread
    have hshift : o.swizzle.shift h.offset read = .ok (o.swizzle.shifted h.offset read) := by
      refine Swizzle.shift_ok h4 fun k hk => ?_
      have hk' := hlanes k hk
      omega
    obtain ⟨g₂, hg₂, htidy₂, hr₂⟩ := Function.modifySwizzle_ok (e := .swizzleOfNonAlu u.instr)
      (·.shift h.offset read) htidy hbody₁ ho₁ hshift
    rw [List.set_set] at hr₂
    refine ⟨o, read, g₂, ho, hread, hr₁.trans hr₂, htidy₂, ?_⟩
    simp only [Rewiring.aluReader, hg₁, ok_bind, hzero, if_false, hread₁, hg₂]
    rfl

theorem Halfway.reader (hr : Halfway W h (u :: us) bs r) (hnot : u ∉ us) :
    ∃ r', Rewiring.reader W.value h r u = .ok r' ∧ Steps W h r r' ∧ Halfway W h us bs r' := by
  have hu : r.func.reads? u = some h.value := (hr.reads u).mpr (by simp)
  obtain ⟨x, hx, -⟩ := Function.reads?_eq_some.mp hu
  obtain ⟨b, _, hb, -⟩ := Function.reads?_iff.mp hu
  have hinstr : r.func.instr u.instr = .ok x := Function.instr_eq_ok.mpr hx
  have hbody : r.func.body? u.instr = some x.body := by simp [Function.body?, hx]
  cases halu : x.body.alu? with
  | some al =>
    have hal : x.body = .alu al := by
      cases hxb : x.body <;> simp_all [Body.alu?]
    rw [hal] at hbody
    obtain ⟨o, read, g, ho, hread, hg, htidy, hrun⟩ := aluReader_ok hr.toSteady hu hbody
    have hreader : Rewiring.reader W.value h r u = r.aluReader W.value h u := by
      simp only [Rewiring.reader, hinstr, ok_bind, Body.isAlu, halu, Option.isSome_some, if_true]
    have hstep := Step.alu (W := W) hu hbody ho hread hg htidy
    exact ⟨_, hreader.trans hrun, .single hstep,
      hr.turned hnot hstep hr.offers.ne.symm (hg.alu_reads hbody hb ho) hg.condition⟩
  | none =>
    obtain ⟨v, r₁, hcopied, hsteps, hr₁, hv, hsame⟩ := hr.copied
    have hu₁ : r₁.func.reads? u = some h.value := (hr₁.reads u).mpr (by simp)
    obtain ⟨b₁, _, hb₁, -⟩ := Function.reads?_iff.mp hu₁
    have hbody₁ : r₁.func.body? u.instr = some x.body := (hsame u.instr b hb).trans hbody
    obtain ⟨hc, hne⟩ := hr₁.copy v hv
    obtain ⟨g, hg, htidy, hre⟩ := Function.replaceSource_ok hr₁.tidy hu₁ hbody₁ hne.symm
      (Function.hasValue_of_shape hc.shape)
    have hstep := Step.other (W := W) hv hu₁ hbody₁ halu hre htidy
    refine ⟨{ r₁ with func := g }, ?_, hsteps.tail hstep,
      hr₁.turned hnot hstep hne (hre.other_reads hbody₁ hb₁ hu₁) hre.condition⟩
    simp only [Rewiring.reader, hinstr, ok_bind, Body.isAlu, halu, Option.isSome_none,
      Bool.false_eq_true, if_false, hcopied, hg]
    rfl

theorem Halfway.branch (hr : Halfway W h us (b :: bs) r) (hnot : b ∉ bs) :
    ∃ r', Rewiring.branch W.value h r b = .ok r' ∧ Steps W h r r' ∧ Halfway W h us bs r' := by
  obtain ⟨v, r₁, hcopied, hsteps, hr₁, hv, -⟩ := hr.copied
  obtain ⟨hc, hne⟩ := hr₁.copy v hv
  have hb : r₁.func.condition? b = some h.value := (hr₁.conditions b).mpr (by simp)
  obtain ⟨g, hg, htidy, hre⟩ :=
    Function.setCondition_ok hr₁.tidy hb (Function.hasValue_of_shape hc.shape)
  have hstep := Step.branch (W := W) hv hb hre htidy
  refine ⟨{ r₁ with func := g }, ?_, hsteps.tail hstep, hstep.steady hr₁.toSteady,
    by rw [hre.reads]; exact hr₁.reads, fun c => ?_⟩
  · simp only [Rewiring.branch, hcopied, ok_bind, hg]
    rfl
  · rw [hre.condition hb]
    split
    · rename_i hcb
      rw [hcb]
      exact ⟨fun he => absurd (Option.some.inj he) hne, fun hm => absurd hm hnot⟩
    · rename_i hcb
      rw [hr₁.conditions]
      simp [hcb]

theorem Halfway.readers (hr : Halfway W h us bs r) (hnd : us.Nodup) :
    ∃ r', us.foldlM (Rewiring.reader W.value h) r = .ok r' ∧ Steps W h r r' ∧
      Halfway W h [] bs r' := by
  induction us generalizing r with
  | nil => exact ⟨r, rfl, .refl, hr⟩
  | cons u us ih =>
    obtain ⟨hnot, hnd⟩ := List.nodup_cons.mp hnd
    obtain ⟨r₁, hrun, hs₁, hr₁⟩ := hr.reader hnot
    obtain ⟨r₂, hruns, hs₂, hr₂⟩ := ih hr₁ hnd
    exact ⟨r₂, by simp only [List.foldlM_cons, hrun, ok_bind, hruns], hs₁.trans hs₂, hr₂⟩

theorem Halfway.branches (hr : Halfway W h us bs r) (hnd : bs.Nodup) :
    ∃ r', bs.foldlM (Rewiring.branch W.value h) r = .ok r' ∧ Steps W h r r' ∧
      Halfway W h us [] r' := by
  induction bs generalizing r with
  | nil => exact ⟨r, rfl, .refl, hr⟩
  | cons b bs ih =>
    obtain ⟨hnot, hnd⟩ := List.nodup_cons.mp hnd
    obtain ⟨r₁, hrun, hs₁, hr₁⟩ := hr.branch hnot
    obtain ⟨r₂, hruns, hs₂, hr₂⟩ := ih hr₁ hnd
    exact ⟨r₂, by simp only [List.foldlM_cons, hrun, ok_bind, hruns], hs₁.trans hs₂, hr₂⟩

theorem half_ok (hr : Steady W h { r with copy := none }) : ∃ r',
    Rewiring.half W.value r h = .ok r' ∧ Steps W h { r with copy := none } r' ∧
      (∀ u, r'.func.reads? u ≠ some h.value) ∧ ∀ c, r'.func.condition? c ≠ some h.value := by
  have hvalue : ∀ {r'}, Steady W h r' → ∃ x, r'.func.value h.value = .ok x ∧
      r'.func.values.get? h.value = some x := by
    intro r' hr'
    obtain ⟨x, hx⟩ := Function.hasValue_iff.mp (Function.hasValue_of_shape hr'.offers.half)
    exact ⟨x, Function.value_eq_ok.mpr hx, hx⟩
  obtain ⟨x, hx, hget⟩ := hvalue hr
  have huses : r.func.uses? h.value = some x.uses := by simp [Function.uses?, hget]
  have hbranches : r.func.branches? h.value = some x.branchUses := by
    simp [Function.branches?, hget]
  have hstart : Halfway W h x.uses x.branchUses { r with copy := none } :=
    ⟨hr, fun u => (hr.tidy.recorded.mem_iff huses).symm,
      fun c => (hr.tidy.linked.branches.mem_iff hbranches).symm⟩
  obtain ⟨r₁, hrun₁, hs₁, hr₁⟩ := hstart.readers (hr.tidy.recorded.nodup huses)
  obtain ⟨x₁, hx₁, hget₁⟩ := hvalue hr₁.toSteady
  have hbranches₁ : r₁.func.branches? h.value = some x₁.branchUses := by
    simp [Function.branches?, hget₁]
  have hmid : Halfway W h [] x₁.branchUses r₁ :=
    ⟨hr₁.toSteady, hr₁.reads, fun c => (hr₁.tidy.linked.branches.mem_iff hbranches₁).symm⟩
  obtain ⟨r₂, hrun₂, hs₂, hr₂⟩ := hmid.branches (hr₁.tidy.linked.branches.nodup hbranches₁)
  obtain ⟨x₂, hx₂, hget₂⟩ := hvalue hr₂.toSteady
  have hunread : ∀ u, r₂.func.reads? u ≠ some h.value := fun u => by simp [hr₂.reads]
  have huntested : ∀ c, r₂.func.condition? c ≠ some h.value := fun c => by simp [hr₂.conditions]
  have hread : x₂.isRead = false := by
    have hnone := hr₂.tidy.unread (Function.hasValue_iff.mpr ⟨x₂, hget₂⟩) hunread huntested
    simp only [Function.uses?, Function.branches?, hget₂, Option.map_some,
      Option.some.injEq] at hnone
    simp [Value.isRead, hnone]
  refine ⟨r₂, ?_, hs₁.trans hs₂, hunread, huntested⟩
  simp only [Rewiring.half, hx, ok_bind, hrun₁, hx₁, hrun₂, hx₂, hread]
  rfl

/-- The readers of the first half turn away, and then those of the second. -/
structure Turns (W : Wide) (hA hB : Half) (f : Function) (mid r : Rewiring) : Prop where
  first : Steps W hA ⟨f, W.instr, [], 0, none⟩ mid
  second : Steps W hB { mid with copy := none } r
  unread : ∀ h ∈ [hA, hB], ∀ u, r.func.reads? u ≠ some h.value
  untested : ∀ h ∈ [hA, hB], ∀ c, r.func.condition? c ≠ some h.value

variable {hA hB : Half} {mid : Rewiring}

theorem Steady.start (hf : f.Tidy) (hv : f.Verified) (ho : W.Offers f h) :
    Steady W h ⟨f, W.instr, [], 0, none⟩ :=
  ⟨hf, hv, ho, ho.home, by simp⟩

theorem Steady.next (hr : Steady W hA mid) (ho : W.Offers mid.func hB) :
    Steady W hB { mid with copy := none } :=
  ⟨hr.tidy, hr.verified, ho, hr.anchored, by simp⟩

theorem Turns.steady (ht : Turns W hA hB f mid r) (hf : f.Tidy) (hv : f.Verified)
    (hoA : W.Offers f hA) (hoB : W.Offers f hB) :
    Steady W hB { mid with copy := none } ∧ Steady W hB r := by
  have hmid := (ht.first.steady (.start hf hv hoA)).next (ht.first.offers hoB)
  exact ⟨hmid, ht.second.steady hmid⟩

theorem halves_ok (hf : f.Tidy) (hv : f.Verified) (hoA : W.Offers f hA) (hoB : W.Offers f hB) :
    ∃ mid r, [hA, hB].foldlM (Rewiring.half W.value) ⟨f, W.instr, [], 0, none⟩ = .ok r ∧
      Turns W hA hB f mid r := by
  have hstart := Steady.start hf hv hoA
  obtain ⟨mid, hrun₁, hs₁, hunread₁, huntested₁⟩ := half_ok (r := ⟨f, W.instr, [], 0, none⟩) hstart
  have hmid := hs₁.steady hstart
  obtain ⟨r, hrun₂, hs₂, hunread₂, huntested₂⟩ := half_ok (hmid.next (hs₁.offers hoB))
  have hclear : Clear hA.value { mid with copy := none } :=
    ⟨Function.hasValue_of_shape hmid.offers.half, by simp, hunread₁, huntested₁⟩
  have hclear₂ := hs₂.clear hoA.ne hclear
  refine ⟨mid, r, ?_, hs₁, hs₂, ?_, ?_⟩
  · simp only [List.foldlM_cons, List.foldlM_nil, hrun₁, hrun₂, ok_bind]
    rfl
  · simpa using ⟨hclear₂.unread, hunread₂⟩
  · simpa using ⟨hclear₂.untested, huntested₂⟩

end Rewiring

end ShaderSSA
