import ShaderSSA.Proofs.Operations
import ShaderSSA.Proofs.VarChannels

/-! The slots that derefs reach. An array step moves by whole elements, so its slots lie inside
those of its parent and apart from those of the other elements, and no offset on the way leaves the
variable. -/

namespace ShaderSSA

namespace VarType

variable {t t' u u' : VarType} {k N : Nat} {ks ks' : List Nat}

/-- The type that the indices lead to, the last index first, if each is below the length of its
array. -/
def elementAt? (t : VarType) : List Nat → Option VarType
  | [] => some t
  | k :: ks =>
    match t.elementAt? ks with
    | some (.array element length) => if k < length then some element else none
    | _ => none

/-- The slots in front of the element that the indices lead to. -/
def slotsBefore (t : VarType) : List Nat → Nat
  | [] => 0
  | k :: ks => t.slotsBefore ks + k * ((t.elementAt? (k :: ks)).bind slotCount?).getD 0

theorem elementAt?_cons : t.elementAt? (k :: ks) = some u ↔
    ∃ length, t.elementAt? ks = some (.array u length) ∧ k < length := by
  simp only [elementAt?]
  split
  · rename_i element length h
    simp only [h, Option.ite_none_right_eq_some, Option.some.injEq, array.injEq]
    constructor
    · rintro ⟨hk, rfl⟩
      exact ⟨length, ⟨rfl, rfl⟩, hk⟩
    · rintro ⟨_, ⟨rfl, rfl⟩, hk⟩
      exact ⟨hk, rfl⟩
  · rename_i h
    simp only [reduceCtorEq, false_iff]
    rintro ⟨length, hu, -⟩
    exact h u length hu

theorem slotsBefore_cons (hu : t.elementAt? (k :: ks) = some u) {s : Nat}
    (hs : u.slotCount? = some s) : t.slotsBefore (k :: ks) = t.slotsBefore ks + k * s := by
  simp [slotsBefore, hu, hs]

theorem slotCount?_array {length : Nat} : (array u length).slotCount? = some N ↔
    ∃ s, u.slotCount? = some s ∧ length * s < 1 <<< 32 ∧ length * s = N := by
  simp only [slotCount?, Option.bind_eq_some_iff, fit32?, Option.ite_none_right_eq_some,
    Option.some.injEq, Nat.mul_comm]

theorem mul_add_le_mul {j k s : Nat} (h : j < k) : j * s + s ≤ k * s := by
  rw [← Nat.succ_mul]
  exact Nat.mul_le_mul_right s h

theorem slotsBefore_add_le (hN : t.slotCount? = some N) (hu : t.elementAt? ks = some u) :
    ∃ s, u.slotCount? = some s ∧ t.slotsBefore ks + s ≤ N := by
  induction ks generalizing u with
  | nil =>
    cases hu
    exact ⟨N, hN, by simp [slotsBefore]⟩
  | cons k ks ih =>
    obtain ⟨length, hparent, hk⟩ := elementAt?_cons.mp hu
    obtain ⟨S, hS, hle⟩ := ih hparent
    obtain ⟨s, hs, -, rfl⟩ := slotCount?_array.mp hS
    have hroom := mul_add_le_mul (s := s) hk
    refine ⟨s, hs, ?_⟩
    rw [slotsBefore_cons hu hs]
    omega

theorem lt_of_elementAt?_array {length : Nat} (hN : t.slotCount? = some N)
    (hu : t.elementAt? ks = some (.array u length)) : N < 1 <<< 32 := by
  induction ks generalizing u length with
  | nil =>
    cases hu
    obtain ⟨s, -, hlt, rfl⟩ := slotCount?_array.mp hN
    exact hlt
  | cons k ks ih =>
    obtain ⟨length', hparent, -⟩ := elementAt?_cons.mp hu
    exact ih hparent

theorem elementAt?_unique (hlen : ks.length = ks'.length) (hu : t.elementAt? ks = some u)
    (hu' : t.elementAt? ks' = some u') : u = u' := by
  induction ks generalizing ks' u u' with
  | nil =>
    obtain rfl := List.eq_nil_of_length_eq_zero hlen.symm
    exact Option.some.inj (hu.symm.trans hu')
  | cons k ks ih =>
    cases ks' with
    | nil => simp at hlen
    | cons k' ks' =>
      obtain ⟨length, hparent, -⟩ := elementAt?_cons.mp hu
      obtain ⟨length', hparent', -⟩ := elementAt?_cons.mp hu'
      exact (array.inj (ih (by simpa using hlen) hparent hparent')).1

theorem slotsBefore_apart (hN : t.slotCount? = some N) (hlen : ks.length = ks'.length)
    (hne : ks ≠ ks') (hu : t.elementAt? ks = some u) (hu' : t.elementAt? ks' = some u) {s : Nat}
    (hs : u.slotCount? = some s) :
    t.slotsBefore ks + s ≤ t.slotsBefore ks' ∨ t.slotsBefore ks' + s ≤ t.slotsBefore ks := by
  induction ks generalizing ks' u s with
  | nil => exact absurd (List.eq_nil_of_length_eq_zero hlen.symm).symm hne
  | cons k ks ih =>
    cases ks' with
    | nil => simp at hlen
    | cons k' ks' =>
      obtain ⟨length, hparent, hk⟩ := elementAt?_cons.mp hu
      obtain ⟨length', hparent', hk'⟩ := elementAt?_cons.mp hu'
      have hlen' : ks.length = ks'.length := by simpa using hlen
      obtain rfl := (array.inj (elementAt?_unique hlen' hparent hparent')).2
      rw [slotsBefore_cons hu hs, slotsBefore_cons hu' hs]
      by_cases hsame : ks = ks'
      · -- two elements of one array
        subst hsame
        have hkk : k ≠ k' := fun h => hne (by rw [h])
        rcases Nat.lt_or_gt_of_ne hkk with hlt | hlt
        · have hroom := mul_add_le_mul (s := s) hlt
          omega
        · have hroom := mul_add_le_mul (s := s) hlt
          omega
      · -- elements of two arrays, which lie apart
        obtain ⟨S, hS, -⟩ := slotsBefore_add_le hN hparent
        obtain ⟨s', hs', -, rfl⟩ := slotCount?_array.mp hS
        obtain rfl := Option.some.inj (hs.symm.trans hs')
        have hapart := ih hlen' hsame hparent hparent' hS
        have hroom := mul_add_le_mul (s := s) hk
        have hroom' := mul_add_le_mul (s := s) hk'
        omega

theorem elementAt?_channelType (h : t.channelType? = some t') (hu : t.elementAt? ks = some u) :
    (∃ u', u.channelType? = some u' ∧ t'.elementAt? ks = some u') ∧
      t'.slotsBefore ks = t.slotsBefore ks := by
  induction ks generalizing u with
  | nil =>
    cases hu
    exact ⟨⟨t', h, rfl⟩, rfl⟩
  | cons k ks ih =>
    obtain ⟨length, hparent, hk⟩ := elementAt?_cons.mp hu
    obtain ⟨⟨v, hv, hparent'⟩, hsame⟩ := ih hparent
    obtain ⟨u', hu', rfl⟩ := channelType?_array hv
    have hcons : t'.elementAt? (k :: ks) = some u' := elementAt?_cons.mpr ⟨length, hparent', hk⟩
    refine ⟨⟨u', hu', hcons⟩, ?_⟩
    simp only [slotsBefore, hu, hcons, hsame, Option.bind_some, slotCount?_channelType hu']

end VarType

namespace Function

variable {f g : Function} {root : VarId} {x : Variable} {n : Nat} {v : ValueId} {t : VarType}
  {i : InstrId}

/-- The derefs stay as they are, whatever else is edited. -/
structure KeepsDerefs (f g : Function) : Prop where
  body : ∀ i d, f.body? i = some (.deref d) → g.body? i = some (.deref d)
  source : ∀ v i, f.source? v = some i → g.source? v = some i

/-- A deref of the variable `root`, declared as `x`, or array steps on top of one have been built,
and `v` is the last of them. -/
inductive Built (root : VarId) (x : Variable) : Function → ValueId → Prop
  | var {b b' : Builder} {v : ValueId} : (Build.derefVar root x).run b = .ok (v, b') →
      Built root x b'.func v
  | element {b b' : Builder} {parent index v : ValueId} : Built root x b.func parent →
      (Build.derefElement parent index).run b = .ok (v, b') → Built root x b'.func v
  | other {f g : Function} {v : ValueId} : Built root x f v → f.KeepsDerefs g → Built root x g v

theorem Chain.keeps (h : f.Chain root x n v t) (hk : f.KeepsDerefs g) : g.Chain root x n v t := by
  induction h with
  | var hs hb => exact .var (hk.source _ _ hs) (hk.body _ _ hb)
  | element hs hb _ ih => exact .element (hk.source _ _ hs) (hk.body _ _ hb) ih

theorem Chain.keeps_all (h : f.Chain root x n v t) (hk : Relation.ReflTransGen KeepsDerefs f g) :
    g.Chain root x n v t := by
  induction hk with
  | refl => exact h
  | tail _ hstep ih => exact ih.keeps hstep

theorem Chain.type_unique (h : f.Chain root x n v t) {m : Nat} {t' : VarType}
    (h' : f.Chain root x m v t') : t = t' := by
  obtain ⟨i, d, hs, hb, -, rfl⟩ := h.source
  obtain ⟨i', d', hs', hb', -, rfl⟩ := h'.source
  obtain rfl := Option.some.inj (hs.symm.trans hs')
  obtain rfl : d = d' := by simpa [hb] using hb'
  rfl

theorem Chain.of_var {r : VarId} {mode : Mode} {type : VarType} (h : f.Chain root x n v t)
    (hs : f.source? v = some i) (hb : f.body? i = some (.deref ⟨.var r, mode, type⟩)) :
    root = r ∧ t = x.type := by
  cases h with
  | var hs' hb' =>
    obtain rfl := Option.some.inj (hs.symm.trans hs')
    simp_all
  | element hs' hb' _ =>
    obtain rfl := Option.some.inj (hs.symm.trans hs')
    simp [hb] at hb'

theorem Chain.of_element {parent index : ValueId} {mode : Mode} {type : VarType}
    (h : f.Chain root x n v t) (hs : f.source? v = some i)
    (hb : f.body? i = some (.deref ⟨.element parent index, mode, type⟩)) :
    type = t ∧ ∃ m length, f.Chain root x m parent (.array t length) := by
  cases h with
  | var hs' hb' =>
    obtain rfl := Option.some.inj (hs.symm.trans hs')
    simp [hb] at hb'
  | @element m _ _ _ _ _ length hs' hb' hp =>
    obtain rfl := Option.some.inj (hs.symm.trans hs')
    simp only [hb, Option.some.injEq, Body.deref.injEq, Deref.mk.injEq,
      DerefStep.element.injEq] at hb'
    obtain ⟨⟨rfl, rfl⟩, -, rfl⟩ := hb'
    exact ⟨rfl, m, length, hp⟩

theorem Kept.keepsDerefs (h : f.Kept g) : f.KeepsDerefs g := by
  refine ⟨fun i d hd => ?_, h.source⟩
  obtain ⟨y, hy, hbody⟩ := Option.map_eq_some_iff.mp hd
  simp [body?, h.instr i y hy, hbody]

end Function

namespace Build

variable {f : Function} {body : Body}

theorem insertValue_keeps (shape : Shape) :
    (insertValue body shape).Leads Function.KeepsDerefs f fun v g =>
      ∃ i, g.source? v = some i ∧ g.body? i = some body := by
  have hinsert : (insert body (some shape)).Leads Function.KeepsDerefs f fun i g =>
      g.dest? i = some ⟨f.values.size⟩ ∧ g.source? ⟨f.values.size⟩ = some i ∧
        g.body? i = some body := by
    rintro ⟨f, c⟩ rfl -
    refine .of_forall ?_
    rintro ⟨n, b⟩ hrun
    have hi := (insert_of_run hrun).1
    refine ⟨trivial, [], .single (Function.kept_of_insert hi).keepsDerefs, ?_⟩
    obtain ⟨_, pos, -, -, -, -, rfl, hg⟩ := Function.insert_eq_ok.mp hi
    simp [hg, Function.dest?_inserted, Function.source?_inserted, Function.body?_inserted]
  refine .insertValue hinsert ?_
  rintro i v _ g - ⟨hdest, hsource, hbody⟩ hv
  obtain rfl := Option.some.inj (hdest.symm.trans hv)
  exact ⟨i, hsource, hbody⟩

theorem derefElement_keeps {root : VarId} {x : Variable} {n : Nat} {parent index : ValueId}
    {t : VarType} (h : f.Chain root x n parent t) :
    (derefElement parent index).Leads Function.KeepsDerefs f fun v g =>
      ∃ u, g.Chain root x (n + 1) v u := by
  obtain ⟨i, d, hs, hb, hmode, htype⟩ := h.source
  refine derefOf_obeys hs hb ?_
  simp only [htype, hmode]
  cases t with
  | array element length =>
    refine (insertValue_keeps _).imp ?_
    rintro v _ g hkept ⟨j, hs', hb'⟩
    exact ⟨element, .element hs' hb' (h.keeps_all hkept)⟩
  | vector | matrix | record => exact .lift fun _ h => by cases h

end Build

namespace Function

variable {f g : Function} {root : VarId} {x : Variable} {n : Nat} {v : ValueId} {t : VarType}

theorem Built.chain (h : f.Built root x v) : ∃ n t, f.Chain root x n v t := by
  induction h with
  | var hrun =>
    obtain ⟨-, _, -, i, hs, hb⟩ := (Build.insertValue_keeps _ _ rfl trivial).of_ok hrun
    exact ⟨1, _, .var hs hb⟩
  | element _ hrun ih =>
    obtain ⟨n, t, hchain⟩ := ih
    obtain ⟨-, _, -, u, hu⟩ := (Build.derefElement_keeps hchain _ rfl trivial).of_ok hrun
    exact ⟨n + 1, u, hu⟩
  | other _ hk ih =>
    obtain ⟨n, t, hchain⟩ := ih
    exact ⟨n, t, hchain.keeps hk⟩

end Function

namespace Machine

variable {s : Setting} {m m' : Machine} {root : VarId} {x : Variable} {i : InstrId}
  {v parent index : ValueId} {t u : VarType} {n N : Nat} {ks : List Nat}

/-- The derefs that led to the place of `v` have been performed one after the other and have read
the given indices, the last one first. -/
inductive Follows [FloatOps] (s : Setting) : Machine → ValueId → List Nat → Prop
  | var {m m' : Machine} {i : InstrId} {v : ValueId} {root : VarId} {mode : Mode}
      {type : VarType} : s.func.body? i = some (.deref ⟨.var root, mode, type⟩) →
      s.func.dest? i = some v → m.step s i = .ok m' → Follows s m' v []
  | element {m m' : Machine} {i : InstrId} {v parent index : ValueId} {mode : Mode}
      {type : VarType} {lanes : Lanes} {ks : List Nat} : Follows s m parent ks →
      s.func.body? i = some (.deref ⟨.element parent index, mode, type⟩) →
      s.func.dest? i = some v → m.read index = .ok lanes → m.step s i = .ok m' →
      Follows s m' v (lanes.first.toNat :: ks)
  | other {m m' : Machine} {i : InstrId} {v : ValueId} {ks : List Nat} : Follows s m v ks →
      s.func.dest? i ≠ some v → m.step s i = .ok m' → Follows s m' v ks

theorem place_of_step [FloatOps] {d : Deref} (hf : s.func.Defined)
    (hb : s.func.body? i = some (.deref d)) (hd : s.func.dest? i = some v)
    (h : m.step s i = .ok m') :
    m'.env.places v = m.env.derefPlace d ∧ (m.env.derefPlace d).isSome := by
  have hstep := (step_ok hf h).1
  simp only [Function.step?, hb, hd, Option.bind_some, Env.effect, Option.map_map,
    Option.map_eq_some_iff] at hstep
  obtain ⟨p, hp, henv⟩ := hstep
  simp [← henv, hp, Env.apply, Env.definePlace]

theorem places_of_step [FloatOps] (hf : s.func.Defined) (hd : s.func.dest? i ≠ some v)
    (h : m.step s i = .ok m') : m'.env.places v = m.env.places v := by
  have hstep := (step_ok hf h).1
  simp only [Function.step?, Option.bind_eq_some_iff, Option.map_eq_some_iff] at hstep
  obtain ⟨body, -, effect, -, henv⟩ := hstep
  rw [← henv]
  exact (Function.holds_apply hd).2

theorem read_eq_ok {lanes : Lanes} : m.read v = .ok lanes ↔ m.env.values v = some lanes := by
  rw [← toOption_read, toOption_eq_some]

theorem place_eq_ok {p : Place} : m.place v = .ok p ↔ m.env.places v = some p := by
  rw [← toOption_place, toOption_eq_some]

theorem derefPlace_element {e : Env} {o stride : Nat} {lanes : Lanes} {mode : Mode} {p : Place}
    (hp : e.places parent = some ⟨root, o⟩) (hi : e.values index = some lanes)
    (hs : t.slotCount? = some stride) :
    e.derefPlace ⟨.element parent index, mode, t⟩ = some p ↔
      lanes.first.toNat * stride < 1 <<< 32 ∧ o + lanes.first.toNat * stride < 1 <<< 32 ∧
        ⟨root, o + lanes.first.toNat * stride⟩ = p := by
  simp only [Env.derefPlace, hp, hi, hs, Option.bind_eq_bind, Option.bind_some,
    Option.bind_eq_some_iff, toOption_eq_some, Checked.fit_eq_ok, Option.pure_def,
    Option.some.injEq]
  constructor
  · rintro ⟨_, ⟨hstep, rfl⟩, _, ⟨hoffset, rfl⟩, hp⟩
    exact ⟨hstep, hoffset, hp⟩
  · rintro ⟨hstep, hoffset, hp⟩
    exact ⟨_, ⟨hstep, rfl⟩, _, ⟨hoffset, rfl⟩, hp⟩

/-- The place that the indices lead to has the type of the chain and lies behind the slots that
they pass over. -/
theorem Follows.place [FloatOps] (h : m.Follows s v ks) (hf : s.func.Defined)
    (hN : x.type.slotCount? = some N) (hc : s.func.Chain root x n v t)
    (hu : x.type.elementAt? ks = some u) :
    u = t ∧ m.env.places v = some ⟨root, x.type.slotsBefore ks⟩ := by
  induction h generalizing n t u with
  | var hb hd hstep =>
    obtain ⟨hplace, -⟩ := place_of_step hf hb hd hstep
    obtain ⟨rfl, rfl⟩ := hc.of_var ((hf.iff _ _).mp hd) hb
    exact ⟨(Option.some.inj hu).symm, hplace⟩
  | @element m m' i v parent index mode type lanes ks _ hb hd hread hstep ih =>
    obtain ⟨hplace, hsome⟩ := place_of_step hf hb hd hstep
    obtain ⟨p, hp⟩ := Option.isSome_iff_exists.mp hsome
    obtain ⟨rfl, _, length, hparent⟩ := hc.of_element ((hf.iff _ _).mp hd) hb
    obtain ⟨length', hu', -⟩ := VarType.elementAt?_cons.mp hu
    obtain ⟨harray, hfrom⟩ := ih hparent hu'
    obtain ⟨rfl, rfl⟩ := VarType.array.inj harray
    obtain ⟨stride, hs, -⟩ := VarType.slotsBefore_add_le hN hu
    obtain ⟨-, -, rfl⟩ := (derefPlace_element hfrom (read_eq_ok.mp hread) hs).mp hp
    exact ⟨rfl, by rw [hplace, hp, VarType.slotsBefore_cons hu hs]⟩
  | other _ hd hstep ih =>
    rw [places_of_step hf hd hstep]
    exact ih hc hu

/-- From a place inside the variable a step to an element of the array does not overflow. -/
theorem Follows.next [FloatOps] (h : m.Follows s v ks) (hf : s.func.Defined)
    (hN : x.type.slotCount? = some N) (hv : s.func.Built root x v) {w : ValueId}
    (hw : s.func.Built root x w) {mode : Mode} {type : VarType} {lanes : Lanes}
    (hd : s.func.dest? i = some w)
    (hb : s.func.body? i = some (.deref ⟨.element v index, mode, type⟩))
    (hread : m.read index = .ok lanes) (hu : x.type.elementAt? (lanes.first.toNat :: ks) = some u)
    (hlimit : m.steps < s.limit) :
    ∃ m', m.step s i = .ok m' ∧ m'.Follows s w (lanes.first.toNat :: ks) := by
  obtain ⟨_, _, hc⟩ := hv.chain
  obtain ⟨_, _, hc'⟩ := hw.chain
  obtain ⟨length, hparent, -⟩ := VarType.elementAt?_cons.mp hu
  obtain ⟨rfl, hplace⟩ := h.place hf hN hc hparent
  obtain ⟨rfl, _, _, hc''⟩ := hc'.of_element ((hf.iff _ _).mp hd) hb
  obtain ⟨rfl, -⟩ := VarType.array.inj (hc''.type_unique hc)
  obtain ⟨stride, hs, hle⟩ := VarType.slotsBefore_add_le hN hu
  have hfits := VarType.lt_of_elementAt?_array hN hparent
  rw [VarType.slotsBefore_cons hu hs] at hle
  have hnext : m.env.derefPlace ⟨.element v index, mode, type⟩ =
      some ⟨root, x.type.slotsBefore ks + lanes.first.toNat * stride⟩ :=
    (derefPlace_element hplace (read_eq_ok.mp hread) hs).mpr ⟨by omega, by omega, rfl⟩
  have hmeans : s.func.step? s.vars i m.env =
      some (m.env.definePlace w ⟨root, x.type.slotsBefore ks + lanes.first.toNat * stride⟩) := by
    simp [Function.step?, hb, hd, Env.effect, hnext, Env.apply]
  obtain ⟨m', hstep, -⟩ := step_of_meaning hf hmeans hlimit
  exact ⟨m', hstep, .element h hb hd hread hstep⟩

/-- Derefs whose indices are below the lengths of their arrays stay inside the variable, and going
on so does not overflow. Derefs of one depth with different indices reach slots that lie apart, and
on a variable for one channel the same indices lead to the same offset. -/
theorem derefs_apart [FloatOps] (hf : s.func.Attained) (hN : x.type.slotCount? = some N)
    (hv : s.func.Built root x v) (hm : m.Follows s v ks) (ht : x.type.elementAt? ks = some t) :
    ∃ o size, m.place v = .ok ⟨root, o⟩ ∧ t.slotCount? = some size ∧ o + size ≤ N ∧
      (∀ i w index mode type lanes, s.func.Built root x w → s.func.dest? i = some w →
        s.func.body? i = some (.deref ⟨.element v index, mode, type⟩) →
        m.read index = .ok lanes → (x.type.elementAt? (lanes.first.toNat :: ks)).isSome →
        m.steps < s.limit →
        ∃ m', m.step s i = .ok m' ∧ m'.Follows s w (lanes.first.toNat :: ks)) ∧
      (∀ (m' : Machine) w ls u, s.func.Built root x w → m'.Follows s w ls →
        x.type.elementAt? ls = some u → ls.length = ks.length → ls ≠ ks →
        u = t ∧ ∃ o', m'.place w = .ok ⟨root, o'⟩ ∧ (o + size ≤ o' ∨ o' + size ≤ o)) ∧
      ∀ y : Variable, x.type.channelType? = some y.type → y.type.slotCount? = some N ∧
        (y.type.elementAt? ks).isSome ∧ ∀ (s' : Setting) root' (m' : Machine) w,
          s'.func.Attained → s'.func.Built root' y w → m'.Follows s' w ks →
          m'.place w = .ok ⟨root', o⟩ := by
  have hdef := hf.reached.linked.defined
  obtain ⟨_, _, hc⟩ := hv.chain
  have hplace := (hm.place hdef hN hc ht).2
  obtain ⟨size, hsize, hle⟩ := VarType.slotsBefore_add_le hN ht
  refine ⟨_, size, place_eq_ok.mpr hplace, hsize, hle, ?_, ?_, ?_⟩
  · intro i w index mode type lanes hw hd hb hread hsome hlimit
    obtain ⟨u, hu⟩ := Option.isSome_iff_exists.mp hsome
    exact hm.next hdef hN hv hw hd hb hread hu hlimit
  · intro m' w ls u hw hm' hu hlen hne
    obtain ⟨_, _, hc'⟩ := hw.chain
    obtain rfl := VarType.elementAt?_unique hlen hu ht
    exact ⟨rfl, _, place_eq_ok.mpr (hm'.place hdef hN hc' hu).2,
      VarType.slotsBefore_apart hN hlen.symm hne.symm ht hu hsize⟩
  · intro y hy
    have hN' := (VarType.slotCount?_channelType hy).trans hN
    obtain ⟨⟨u, -, hu⟩, hsame⟩ := VarType.elementAt?_channelType hy ht
    refine ⟨hN', Option.isSome_iff_exists.mpr ⟨u, hu⟩, fun s' root' m' w hf' hw hm' => ?_⟩
    obtain ⟨_, _, hc'⟩ := hw.chain
    rw [place_eq_ok, (hm'.place hf'.reached.linked.defined hN' hc' hu).2, hsame]

/-- Four rows of five tiles. -/
def tiles : Variable :=
  ⟨"tiles", .shaderIn, .array (.array (.floats 3) 5) 4, 32, 0, .ofBits 0, 0⟩

/-- Derefs of two tiles of one row. -/
def tileEdits : List Operation :=
  [.edit (.insert (.stop ⟨0⟩) (.const [2]) (some ⟨1, 32⟩)),
    .edit (.insert (.stop ⟨0⟩) (.const [3]) (some ⟨1, 32⟩)),
    .edit (.insert (.stop ⟨0⟩) (.deref ⟨.var ⟨0⟩, tiles.mode, tiles.type⟩) (some ⟨1, 32⟩)),
    .edit (.insert (.stop ⟨0⟩) (.deref ⟨.element ⟨2⟩ ⟨0⟩, tiles.mode, .array (.floats 3) 5⟩)
      (some ⟨1, 32⟩)),
    .edit (.insert (.stop ⟨0⟩) (.deref ⟨.element ⟨3⟩ ⟨1⟩, tiles.mode, .floats 3⟩) (some ⟨1, 32⟩)),
    .edit (.insert (.stop ⟨0⟩) (.deref ⟨.element ⟨3⟩ ⟨0⟩, tiles.mode, .floats 3⟩) (some ⟨1, 32⟩))]

def tileStage (n : Nat) : Function := Operation.outcome (tileEdits.take n)

def tileSetting : Setting := ⟨(Variables.empty.add tiles).2, tileStage 6, 9⟩

theorem built_tiles : (tileStage 6).Built ⟨0⟩ tiles ⟨4⟩ ∧ (tileStage 6).Built ⟨0⟩ tiles ⟨5⟩ := by
  have hroot : (Build.derefVar ⟨0⟩ tiles).run ⟨tileStage 2, .stop ⟨0⟩⟩ =
    .ok (⟨2⟩, ⟨tileStage 3, .after ⟨2⟩⟩) := rfl
  have hrow : (Build.derefElement ⟨2⟩ ⟨0⟩).run ⟨tileStage 3, .after ⟨2⟩⟩ =
    .ok (⟨3⟩, ⟨tileStage 4, .after ⟨3⟩⟩) := rfl
  have htile : (Build.derefElement ⟨3⟩ ⟨1⟩).run ⟨tileStage 4, .after ⟨3⟩⟩ =
    .ok (⟨4⟩, ⟨tileStage 5, .after ⟨4⟩⟩) := rfl
  have hother : (Build.derefElement ⟨3⟩ ⟨0⟩).run ⟨tileStage 5, .after ⟨4⟩⟩ =
    .ok (⟨5⟩, ⟨tileStage 6, .after ⟨5⟩⟩) := rfl
  have hfifth : (tileStage 4).insert (.stop ⟨0⟩) (.deref ⟨.element ⟨3⟩ ⟨1⟩, tiles.mode, .floats 3⟩)
    (some ⟨1, 32⟩) = .ok (⟨4⟩, tileStage 5) := rfl
  have hsixth : (tileStage 5).insert (.stop ⟨0⟩) (.deref ⟨.element ⟨3⟩ ⟨0⟩, tiles.mode, .floats 3⟩)
    (some ⟨1, 32⟩) = .ok (⟨5⟩, tileStage 6) := rfl
  have hbuilt : (tileStage 4).Built ⟨0⟩ tiles ⟨3⟩ := .element (.var hroot) hrow
  have hkept : (tileStage 5).Built ⟨0⟩ tiles ⟨3⟩ :=
    .other hbuilt (Function.kept_of_insert hfifth).keepsDerefs
  exact ⟨.other (.element hbuilt htile) (Function.kept_of_insert hsixth).keepsDerefs,
    .element hkept hother⟩

theorem follows_tiles : ∃ m : Machine, m.Follows tileSetting ⟨4⟩ [3, 2] ∧
    m.Follows tileSetting ⟨5⟩ [2, 2] := by
  have hcalc : ((do
      let m₁ ← (start ⟨[], [], []⟩).step tileSetting ⟨0⟩
      let m₂ ← m₁.step tileSetting ⟨1⟩
      let m₃ ← m₂.step tileSetting ⟨2⟩
      let row ← m₃.read ⟨0⟩
      let m₄ ← m₃.step tileSetting ⟨3⟩
      let column ← m₄.read ⟨1⟩
      let m₅ ← m₄.step tileSetting ⟨4⟩
      let column' ← m₅.read ⟨0⟩
      let _ ← m₅.step tileSetting ⟨5⟩
      return (row.first.toNat, column.first.toNat, column'.first.toNat)) :
        Eval (Nat × Nat × Nat)).toOption = some (2, 3, 2) := by decide +kernel
  rw [toOption_eq_some] at hcalc
  obtain ⟨m₁, h₁, hcalc⟩ := bind_eq_ok.mp hcalc
  obtain ⟨m₂, h₂, hcalc⟩ := bind_eq_ok.mp hcalc
  obtain ⟨m₃, h₃, hcalc⟩ := bind_eq_ok.mp hcalc
  obtain ⟨row, hrow, hcalc⟩ := bind_eq_ok.mp hcalc
  obtain ⟨m₄, h₄, hcalc⟩ := bind_eq_ok.mp hcalc
  obtain ⟨column, hcolumn, hcalc⟩ := bind_eq_ok.mp hcalc
  obtain ⟨m₅, h₅, hcalc⟩ := bind_eq_ok.mp hcalc
  obtain ⟨column', hcolumn', hcalc⟩ := bind_eq_ok.mp hcalc
  obtain ⟨m₆, h₆, hcalc⟩ := bind_eq_ok.mp hcalc
  obtain ⟨hr, hc, hc'⟩ : row.first.toNat = 2 ∧ column.first.toNat = 3 ∧
      column'.first.toNat = 2 := by simpa using hcalc
  have hrowed : m₄.Follows tileSetting ⟨3⟩ [2] := hr ▸ .element (.var rfl rfl h₃) rfl rfl hrow h₄
  have htile : m₅.Follows tileSetting ⟨4⟩ [3, 2] := hc ▸ .element hrowed rfl rfl hcolumn h₅
  have hkept : m₅.Follows tileSetting ⟨3⟩ [2] := .other hrowed (by decide) h₅
  have hother : m₆.Follows tileSetting ⟨5⟩ [column'.first.toNat, 2] :=
    .element hkept rfl rfl hcolumn' h₆
  rw [hc'] at hother
  exact ⟨m₆, .other htile (by decide) h₆, hother⟩

/-- Tiles of one row. -/
theorem derefs_apart_tiles : tileSetting.func.Attained ∧ tiles.type.slotCount? = some 20 ∧
    tileSetting.func.Built ⟨0⟩ tiles ⟨4⟩ ∧ tiles.type.elementAt? [3, 2] = some (.floats 3) ∧
    ∃ m : Machine, m.Follows tileSetting ⟨4⟩ [3, 2] ∧ m.Follows tileSetting ⟨5⟩ [2, 2] ∧
      ∃ o o', m.place ⟨4⟩ = .ok ⟨⟨0⟩, o⟩ ∧ m.place ⟨5⟩ = .ok ⟨⟨0⟩, o'⟩ ∧ o + 1 ≤ 20 ∧
        (o + 1 ≤ o' ∨ o' + 1 ≤ o) := by
  have hf : tileSetting.func.Attained := Function.Attained.outcome (tileEdits.take 6)
  have hN : tiles.type.slotCount? = some 20 := by decide +kernel
  have ht : tiles.type.elementAt? [3, 2] = some (.floats 3) := rfl
  have ht' : tiles.type.elementAt? [2, 2] = some (.floats 3) := rfl
  obtain ⟨m, hm, hm'⟩ := follows_tiles
  obtain ⟨o, size, hplace, hsize, hle, -, hapart, -⟩ := derefs_apart hf hN built_tiles.1 hm ht
  obtain rfl : 1 = size := Option.some.inj hsize
  obtain ⟨-, o', hplace', hor⟩ := hapart m ⟨5⟩ [2, 2] _ built_tiles.2 hm' ht' rfl (by decide)
  exact ⟨hf, hN, built_tiles.1, ht, m, hm, hm', o, o', hplace, hplace', hle, hor⟩

end Machine

end ShaderSSA
