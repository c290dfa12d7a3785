import ShaderSSA.Proofs.ChannelLaying
import ShaderSSA.Proofs.Undeclared

/-! What a split of variables leaves to be split: nothing. An access that was not to be split when
it was visited is not to be split later, since whatever it reads either stays what it was or
becomes a value that is no place. -/

namespace ShaderSSA

theorem Body.mapSrcs_eq_deref {body : Body} {ρ : Nat → ValueId → ValueId} {d : Deref}
    (h : body.mapSrcs ρ = .deref d) : ∃ d', body = .deref d' ∧ d'.mode = d.mode ∧
      (∀ v, d.step = .var v → d'.step = .var v) ∧
      ∀ parent index, d.step = .element parent index →
        ∃ parent' index', d'.step = .element parent' index' ∧ ρ 0 parent' = parent := by
  rcases body with _ | _ | ⟨⟨_ | _, _, _⟩⟩ | _ | _ <;> cases h <;> simp

theorem Splitting.extends_of_moves {root : VarId} {May : ValueId → Prop} {Emits : Prop}
    {p q : Splitting × Function} (h : Relation.ReflTransGen (Moves root May Emits) p q) :
    p.1.vars.Extends q.1.vars := by
  induction h with
  | refl => exact .refl _
  | tail _ hstep ih =>
    cases hstep with
    | insert _ => exact ih
    | create _ hc =>
      cases hc
      exact ih.trans (Variables.extends_add _ _).1

namespace Function

variable {f g k : Function} {i j : InstrId} {b : BlockId} {v w : ValueId} {root : VarId}
  {stage : Stage} {modes : Mode} {vars vars' : Variables} {t t' : Splitting} {a : Access}

/-- What there was reads what it read, except that it may have come to read values that are no
places. -/
structure Shifts (f g : Function) : Prop where
  source : ∀ v n, f.source? v = some n → g.source? v = some n
  body : ∀ n body, f.body? n = some body → ∃ ρ : Nat → ValueId → ValueId,
    g.body? n = some (body.mapSrcs ρ) ∧ ∀ s v, ρ s v = v ∨ g.isPlace (ρ s v) = false
  home : ∀ n b body, f.body? n = some body → g.home? n = some b → f.home? n = some b
  new : ∀ n b body, f.body? n = none → g.home? n = some b → g.body? n = some body →
    body.isWide = false

theorem Handed.isPlace (h : f.Handed v w g) (x : ValueId) : g.isPlace x = f.isPlace x := by
  obtain ⟨us, -, hbody⟩ := h.body
  rw [Function.isPlace, Function.isPlace, h.source]
  cases f.source? x with
  | none => rfl
  | some n =>
    rw [Option.bind_some, Option.bind_some, hbody]
    cases f.body? n with
    | none => rfl
    | some body => simp [Body.deref?_mapSrcs]

theorem Leaves.body (h : f.Leaves k i g) {n : InstrId} {body : Body}
    (hb : k.body? n = some body) : ∃ ρ : Nat → ValueId → ValueId,
      g.body? n = some (body.mapSrcs ρ) ∧ ∀ s v, ρ s v = v ∨ g.isPlace (ρ s v) = false := by
  cases h with
  | store hr =>
    refine ⟨fun _ v => v, ?_, fun _ _ => .inl rfl⟩
    rw [(dropped_of_remove hr).body, hb, Body.mapSrcs_id]
  | @load v w l _ _ hw hl hr =>
    have hdrop := dropped_of_remove hr
    have hhand := handed_of_replaceUses hl
    obtain ⟨us, -, hbody⟩ := hhand.body
    have hplace : g.isPlace w = false := by
      rw [isPlace, hdrop.source, hdrop.body, ← isPlace, hhand.isPlace, hw]
    refine ⟨_, by rw [hdrop.body, hbody, hb]; rfl, fun s x => ?_⟩
    by_cases hu : ⟨n, s⟩ ∈ us
    · exact .inr (by simpa [hu] using hplace)
    · exact .inl (if_neg hu)

theorem Leaves.shifts {news : List InstrId} (h : f.Leaves k i g) (hl : f.Laid i news k)
    (hu : Underway stage modes vars f t g) : f.Shifts g where
  source := hu.source
  body _ _ hb := h.body (hl.grows.body hb)
  home n b body hb hn := hu.old n b body hb hn
  new n _ body hb _ hbody := (hu.new n body hb hbody).1

theorem Shed.shifts {S : InstrId → Prop} (h : f.Shed S g) : f.Shifts g where
  source v n hv := by rw [h.source, hv]
  body n body hb := ⟨fun _ v => v, by rw [h.body, hb, Body.mapSrcs_id], fun _ _ => .inl rfl⟩
  home n b _ _ hn := h.home_before hn
  new n b body hb _ hbody := by
    rw [h.body, hb] at hbody
    cases hbody

namespace Shifts

variable (h : f.Shifts g) (hf : f.Linked)
include h hf

theorem definition_of (hv : f.hasValue v) {n : InstrId} {body : Body} (hs : g.source? v = some n)
    (hb : g.body? n = some body) : f.source? v = some n ∧ ∃ body' ρ, f.body? n = some body' ∧
      body'.mapSrcs ρ = body ∧ ∀ s v, ρ s v = v ∨ g.isPlace (ρ s v) = false := by
  obtain ⟨m, hm⟩ := exists_source hv
  obtain rfl : m = n := Option.some.inj ((h.source v m hm).symm.trans hs)
  obtain ⟨x, hx, -⟩ := Option.bind_eq_some_iff.mp ((hf.defined.iff m v).mpr hm)
  have hbody : f.body? m = some x.body := by simp [body?, hx]
  obtain ⟨ρ, hρ, hfix⟩ := h.body m x.body hbody
  exact ⟨hm, x.body, ρ, hbody, Option.some.inj (hρ.symm.trans hb), hfix⟩

theorem deref_of (hv : f.hasValue v) {d : Deref} (hd : g.deref v = .ok (some d)) :
    ∃ d', f.deref v = .ok (some d') ∧ d'.mode = d.mode := by
  obtain ⟨n, y, hs, hy, hyd⟩ := deref_eq_ok_iff.mp hd
  obtain ⟨hs', body', ρ, hb', hmap, -⟩ :=
    h.definition_of hf hv hs (by simp [body?, hy] : g.body? n = some y.body)
  obtain ⟨x, hx, rfl⟩ := Option.map_eq_some_iff.mp hb'
  rw [Body.deref?_eq_some, ← hmap] at hyd
  obtain ⟨d', hd', hmode, -⟩ := Body.mapSrcs_eq_deref hyd
  exact ⟨d', deref_eq_ok_iff.mpr ⟨n, x, hs', hx, Body.deref?_eq_some.mpr hd'⟩, hmode⟩

theorem rooted_of {P : InstrId → Prop} (hr : g.Rooted P root v) (hv : f.hasValue v) :
    f.Rooted (fun _ => True) root v := by
  induction hr with
  | var hs _ hb =>
    obtain ⟨hs', body', ρ, hb', hmap, -⟩ := h.definition_of hf hv hs hb
    obtain ⟨⟨step, _, _⟩, rfl, -, hstep⟩ := Body.mapSrcs_eq_deref hmap
    obtain rfl := hstep.1 _ rfl
    exact .var hs' trivial hb'
  | @element v parent index n _ _ hs _ hb hparent ih =>
    obtain ⟨hs', body', ρ, hb', hmap, hfix⟩ := h.definition_of hf hv hs hb
    obtain ⟨⟨step, _, _⟩, rfl, -, hstep⟩ := Body.mapSrcs_eq_deref hmap
    obtain ⟨parent', index', rfl, hp⟩ := hstep.2 _ _ rfl
    -- The parent is a place, so it is none of the values that have come in.
    obtain rfl : parent' = parent := by
      rcases hfix 0 parent' with he | he
      · exact he.symm.trans hp
      · rw [hp, hparent.isPlace] at he
        cases he
    have hknown := hf.sourced.known n [parent', index'] (by simp [srcs?_eq_map, hb', Body.srcs])
    exact .element hs' trivial hb' (ih (hknown parent' (by simp)))

end Shifts

/-- An access to several channels goes through a chain to a variable. -/
structure Aims (f : Function) (i : InstrId) (a : Access) (target : ValueId) (d : Deref)
    (root : VarId) : Prop where
  body : f.body? i = some (.access a)
  wide : a.width ≠ 1
  kind : a.kind.isDerefAccess
  head : a.srcs[0]? = some target
  deref : f.deref target = .ok (some d)
  chain : f.Rooted (fun _ => True) root target

theorem Splits.aims (h : f.Splits stage modes vars i a v root) :
    ∃ d, f.Aims i a v d root ∧ splitsAccess a.kind d.mode modes := by
  obtain ⟨d, hd, hmode⟩ := h.mode
  exact ⟨d, ⟨h.body, h.wide, h.kind, h.head, hd, h.chain⟩, hmode⟩

theorem Aims.splits {d : Deref} {x : Variable} (h : f.Aims i a v d root)
    (hmode : splitsAccess a.kind d.mode modes) (hx : vars.get? root = some x)
    (hcan : x.canSplit stage) : f.Splits stage modes vars i a v root :=
  ⟨h.body, h.wide, h.kind, h.head, ⟨d, h.deref, hmode⟩, h.chain, x, hx, hcan⟩

theorem Aims.of_shifts {d : Deref} (h : g.Aims i a v d root) (hs : f.Shifts g) (hf : f.Linked)
    (hi : g.home? i = some b) : f.home? i = some b ∧
      ∃ srcs d', f.Aims i { a with srcs } v d' root ∧ d'.mode = d.mode := by
  cases hb₀ : f.body? i with
  | none =>
    have := hs.new i b _ hb₀ hi h.body
    simp [Body.isWide, h.wide] at this
  | some body =>
    obtain ⟨ρ, hρ, hfix⟩ := hs.body i body hb₀
    obtain ⟨a₀, rfl, rfl⟩ := Body.mapSrcs_eq_access.mp (Option.some.inj (hρ.symm.trans h.body))
    have hv := h.head
    rw [List.getElem?_mapIdx, Option.map_eq_some_iff] at hv
    obtain ⟨v₀, hv₀, hρv⟩ := hv
    obtain rfl : v₀ = v := by
      rcases hfix 0 v₀ with he | he
      · exact he.symm.trans hρv
      · rw [hρv, h.chain.isPlace] at he
        cases he
    have hknown : f.hasValue v₀ := hf.sourced.known i a₀.srcs
      (by simp [srcs?_eq_map, hb₀, Body.srcs]) v₀ (List.mem_of_getElem? hv₀)
    obtain ⟨d₀, hd₀, hsame⟩ := hs.deref_of hf hknown h.deref
    exact ⟨hs.home i b _ hb₀ hi, a₀.srcs, d₀,
      ⟨hb₀, h.wide, h.kind, hv₀, hd₀, hs.rooted_of hf h.chain hknown⟩, hsame⟩

/-- An access that has everything a split asks for, except that its variable may be missing. -/
def Wants (stage : Stage) (modes : Mode) (vars : Variables) (f : Function) (i : InstrId) : Prop :=
  ∃ a target d root, f.Aims i a target d root ∧ splitsAccess a.kind d.mode modes ∧
    ∀ x, vars.get? root = some x → x.canSplit stage

theorem Splits.wants (h : f.Splits stage modes vars i a v root) : f.Wants stage modes vars i := by
  obtain ⟨d, haims, hmode⟩ := h.aims
  obtain ⟨x, hx, hcan⟩ := h.var
  refine ⟨a, v, d, root, haims, hmode, fun y hy => ?_⟩
  obtain rfl : x = y := by simpa [hx] using hy
  exact hcan

theorem Wants.splits (h : f.Wants stage modes vars i) (hp : f.Passes modes vars i) :
    ∃ a v root, f.Splits stage modes vars i a v root := by
  obtain ⟨a, v, d, root, haims, hmode, hvar⟩ := h
  obtain ⟨v', d', hv', hd', hroot⟩ := hp a haims.body haims.wide haims.kind
  obtain rfl : v' = v := by simpa [haims.head] using hv'.symm
  obtain rfl : d' = d := by simpa [haims.deref] using hd'.symm
  obtain ⟨root', x, hr', hx⟩ := hroot (splitsAccess_intersects hmode)
  obtain rfl : root' = root := by simpa [haims.chain.derefRoot] using hr'.symm
  exact ⟨a, v', root', haims.splits hmode hx (hvar x hx)⟩

theorem Wants.of_extends (h : f.Wants stage modes vars' i) (hx : vars.Extends vars') :
    f.Wants stage modes vars i := by
  obtain ⟨a, v, d, root, haims, hmode, hvar⟩ := h
  exact ⟨a, v, d, root, haims, hmode, fun x hget => hvar x (hx root x hget)⟩

theorem Wants.of_shifts (h : g.Wants stage modes vars i) (hs : f.Shifts g) (hf : f.Linked)
    (hi : g.home? i = some b) : f.home? i = some b ∧ f.Wants stage modes vars i := by
  obtain ⟨a, v, d, root, haims, hmode, hvar⟩ := h
  obtain ⟨hi₀, srcs, d', haims', hsame⟩ := haims.of_shifts hs hf hi
  exact ⟨hi₀, { a with srcs }, v, d', root, haims', by rwa [hsame], hvar⟩

theorem Passes.extends (h : f.Passes modes vars i) (hx : vars.Extends vars') :
    f.Passes modes vars' i := by
  intro a hb hw hk
  obtain ⟨v, d, hv, hd, hroot⟩ := h a hb hw hk
  refine ⟨v, d, hv, hd, fun hmode => ?_⟩
  obtain ⟨root, x, hr, hget⟩ := hroot hmode
  exact ⟨root, x, hr, hx root x hget⟩

theorem Passes.underway (h : f.Passes modes vars i) (hu : Underway stage modes vars f t g)
    (hsmall : f.SmallAt i) {body : Body} (hb : f.body? i = some body) : g.Passes modes vars i := by
  intro a ha hw hk
  obtain ⟨ρ, hρ, -⟩ := hu.body i body hb
  obtain ⟨a₀, rfl, rfl⟩ := Body.mapSrcs_eq_access.mp (Option.some.inj (hρ.symm.trans ha))
  obtain ⟨v, d, hv, hd, hroot⟩ := h a₀ hb hw hk
  obtain ⟨n, x, hs, hx, hxd⟩ := deref_eq_ok_iff.mp hd
  have hplace : f.isPlace v :=
    isPlace_iff.mpr ⟨n, d, hs, by simp [body?, hx, Body.deref?_eq_some.mp hxd]⟩
  obtain ⟨srcs, hsrcs, hhead⟩ := hu.access hb
  obtain ⟨d', hd', hsame⟩ := hu.deref_mode hd
  rw [hsrcs] at ha
  simp only [Option.some.injEq, Body.access.injEq, Access.mk.injEq] at ha
  refine ⟨v, d', by simpa [← ha.2.2.1] using hhead hsmall v hv hplace, hd', fun hmode => ?_⟩
  obtain ⟨root, x, hr, hget⟩ := hroot (by rwa [← hsame])
  exact ⟨root, x, (hu.rooted (rooted_of_rootWithin hr) fun _ _ _ _ => trivial).derefRoot, hget⟩

theorem Shed.rooted {S P : InstrId → Prop} (hg : f.Shed S g) (h : f.Rooted P root v) :
    g.Rooted P root v := by
  induction h with
  | var hs hi hb => exact .var (by rwa [hg.source]) hi (by rwa [hg.body])
  | element hs hi hb _ ih => exact .element (by rwa [hg.source]) hi (by rwa [hg.body]) ih

theorem Passes.shed {S : InstrId → Prop} (h : f.Passes modes vars i) (hg : f.Shed S g) :
    g.Passes modes vars i := by
  intro a ha hw hk
  obtain ⟨v, d, hv, hd, hroot⟩ := h a (by rw [← hg.body, ha]) hw hk
  obtain ⟨n, x, hs, hx, hxd⟩ := deref_eq_ok_iff.mp hd
  refine ⟨v, d, hv, ?_, fun hmode => ?_⟩
  · rw [← hxd]
    exact deref_eq_ok (by rwa [hg.source]) (by rw [hg.body, body?, hx]; rfl)
  · obtain ⟨root, x, hr, hget⟩ := hroot hmode
    exact ⟨root, x, (hg.rooted (rooted_of_rootWithin hr)).derefRoot, hget⟩

theorem TakesApart.extends (h : TakesApart t f i a v root t' g) : t.vars.Extends t'.vars := by
  cases h with
  | load _ _ hm => exact Splitting.extends_of_moves hm
  | store _ hm => exact Splitting.extends_of_moves hm

theorem splitVarInstr_idle (hi : f.home? i = some b) (hp : f.Passes modes t.vars i)
    (hnone : ∀ a v root, ¬ f.Splits stage modes t.vars i a v root) :
    (splitVarInstr stage modes f i).run t = .ok (f, t) := by
  obtain ⟨y, hy, -⟩ := home?_eq_some.mp hi
  have hinstr : f.instr i = .ok y := instr_eq_ok.mpr hy
  have hbody : f.body? i = some y.body := by simp [body?, hy]
  cases hyb : y.body with
  | access a =>
    rw [hyb] at hbody
    by_cases hw : a.width = 1
    · simp [splitVarInstr, hinstr, hyb, hw, lift_ok_bind]
    by_cases hk : a.kind.isDerefAccess
    case neg => simp [splitVarInstr, hinstr, hyb, hk, lift_ok_bind]
    obtain ⟨v, d, hv, hd, hroot⟩ := hp a hbody hw hk
    have hsrc : a.src 0 = .ok v := by simp [Access.src, hv]
    simp only [splitVarInstr, hinstr, hyb, hw, hk, hsrc, hd, Checked.orElse, lift_ok_bind,
      decide_false, Bool.not_true, Bool.or_false, Bool.false_eq_true, if_false]
    cases hmode : d.mode.intersects modes with
    | false => rfl
    | true =>
      obtain ⟨root, x, hr, hx⟩ := hroot hmode
      have hget : t.vars.get root = .ok x := by simp [Variables.get, hx, Checked.inBounds]
      simp only [hr, lift_ok_bind, Bool.not_true, Bool.false_eq_true, if_false]
      rw [StateT.run_bind, StateT.run_get]
      simp only [pure_bind, hget, lift_ok_bind]
      cases hcan : x.canSplit stage with
      | false => rfl
      | true =>
        cases hsplit : splitsAccess a.kind d.mode modes with
        | false => rfl
        | true =>
          exact absurd ⟨hbody, hw, hk, hv, ⟨d, hd, hsplit⟩, rooted_of_rootWithin hr, x, hx, hcan⟩
            (hnone a v root)
  | _ => simp [splitVarInstr, hinstr, hyb, lift_ok_bind]

/-- What a visit is to leave behind: an access that has everything a split asks for, or one at which
the next visit would stop. -/
def Unsettled (stage : Stage) (modes : Mode) (vars : Variables) (f : Function) (i : InstrId) :
    Prop :=
  f.Wants stage modes vars i ∨ f.SmallAt i ∧ ¬ f.Passes modes vars i

/-- Accesses to several channels are small enough for each of their reads to be on the record. -/
def Slim (f : Function) : Prop :=
  ∀ i b a, f.home? i = some b → f.body? i = some (.access a) → a.width ≠ 1 →
    a.kind.isDerefAccess → a.srcs.length ≤ 256

theorem Slim.shifts (h : f.Slim) (hs : f.Shifts g) : g.Slim := by
  intro i b a hi hb hw hk
  cases hb₀ : f.body? i with
  | none =>
    have := hs.new i b _ hb₀ hi hb
    simp [Body.isWide, hw] at this
  | some body =>
    obtain ⟨ρ, hρ, -⟩ := hs.body i body hb₀
    obtain ⟨a₀, rfl, rfl⟩ := Body.mapSrcs_eq_access.mp (Option.some.inj (hρ.symm.trans hb))
    simpa using h i b a₀ (hs.home i b _ hb₀ hi) hb₀ hw hk

theorem splitVarInstr_visits (stage : Stage) (modes : Mode) (vars : Variables) (f₀ : Function) :
    Visits (splitVarInstr stage modes)
      (fun t f => f.Reached ∧ vars.Extends t.vars ∧ (f₀.Slim → f.Slim))
      (fun t f b j => f.home? j = some b ∧ f.Unsettled stage modes t.vars j) where
  placed _ _ hi := hi.1.linked.placed
  home _ _ _ _ hq := hq.1
  step t f i b g t' := by
    rintro ⟨hf, hvars, hslim⟩ hi hrun
    obtain ⟨hpass, ⟨rfl, rfl, hnone⟩ | ⟨a, v, root, hs, hr, hsplit⟩⟩ := splitVarInstr_visit hrun
    · refine ⟨⟨hf, hvars, hslim⟩, fun _ _ _ hj => hj, fun d j hq => ⟨?_, hq⟩⟩
      rintro rfl
      rcases hq.2 with hwant | ⟨-, hnot⟩
      · obtain ⟨a, v, root, hs⟩ := hwant.splits hpass
        exact hnone a v root hs
      · exact hnot hpass
    · have htake := hs.takesApart hr hsplit
      have hu : Underway stage modes t.vars f t' g :=
        ((Underway.refl hf t).takesApart (.refl _) hs htake).2
      obtain ⟨x, k, news, emitted, -, hlaid, -, hleaves⟩ := splitVar_lays hf hi hs.wide hsplit
      have hshift := hleaves.shifts hlaid hu
      have hne : ∀ {j d}, g.home? j = some d → j ≠ i := by
        rintro j d hj rfl
        simp [htake.gone] at hj
      refine ⟨⟨hu.reached, hvars.trans htake.extends, fun h => (hslim h).shifts hshift⟩,
        fun j d hne hj => ?_, fun d j hq => ?_⟩
      · obtain ⟨body, hb⟩ := exists_body hj
        rw [htake.home hne hb, hj]
      · obtain ⟨hj, hwant | ⟨hsmall, hnot⟩⟩ := hq
        · obtain ⟨hj₀, hwant⟩ := (hwant.of_extends htake.extends).of_shifts hshift hf.linked hj
          exact ⟨hne hj, hj₀, .inl hwant⟩
        · cases hb₀ : f.body? j with
          | none =>
            -- What is new is no access to several channels, so there is nothing to search for.
            refine absurd (fun a' ha' hw _ => ?_) hnot
            have := (hu.new j _ hb₀ ha').1
            simp [Body.isWide, hw] at this
          | some body =>
            have hsmall₀ := hsmall.of_changes htake.changes
            refine ⟨hne hj, hu.old j d body hb₀ hj, .inr ⟨hsmall₀, fun hp => hnot ?_⟩⟩
            exact (hp.underway hu hsmall₀ hb₀).extends htake.extends

/-- Nothing is left to be visited. -/
def Exhausted (stage : Stage) (modes : Mode) (vars : Variables) (f : Function) : Prop :=
  ∀ i b, f.home? i = some b → ¬ f.Unsettled stage modes vars i

theorem Exhausted.extends (h : f.Exhausted stage modes vars) (hx : vars.Extends vars') :
    f.Exhausted stage modes vars' := by
  rintro i b hi (hwant | ⟨hsmall, hnot⟩)
  · exact h i b hi (.inl (hwant.of_extends hx))
  · exact h i b hi (.inr ⟨hsmall, fun hp => hnot (hp.extends hx)⟩)

theorem Exhausted.shed {S : InstrId → Prop} (h : f.Exhausted stage modes vars) (hf : f.Linked)
    (hg : f.Shed S g) : g.Exhausted stage modes vars := by
  rintro i b hi (hwant | ⟨hsmall, hnot⟩)
  · obtain ⟨hi₀, hwant₀⟩ := hwant.of_shifts hg.shifts hf hi
    exact h i b hi₀ (.inl hwant₀)
  · refine h i b (hg.home_before hi)
      (.inr ⟨fun vs hvs => hsmall vs ?_, fun hp => hnot (hp.shed hg)⟩)
    rwa [srcs?_eq_map, hg.body, ← srcs?_eq_map]

theorem splitVars_exhausted (hf : f.Reached)
    (hrun : (f.splitVars stage modes).run t = .ok (g, t')) :
    g.Reached ∧ t.vars.Extends t'.vars ∧ (f.Slim → g.Slim) ∧
      g.Exhausted stage modes t'.vars := by
  obtain ⟨⟨hg, hx, hslim⟩, hnone⟩ := (splitVarInstr_visits stage modes t.vars f).layout
    ⟨hf, .refl _, fun h => h⟩ hrun
  exact ⟨hg, hx, hslim, fun i b hi hq => hnone b i ⟨hi, hq⟩⟩

theorem mapM_splitVars_exhausted {fs gs : List Function} (hf : ∀ f ∈ fs, f.Reached)
    (hrun : (fs.mapM (splitVars stage modes)).run t = .ok (gs, t')) :
    t.vars.Extends t'.vars ∧
      List.Forall₂ (fun f g => g.Reached ∧ (f.Slim → g.Slim) ∧ g.Exhausted stage modes t'.vars)
        fs gs := by
  refine (SplitEdit.forall₂_of_mapM (I := fun _ => True)
    (S := fun t t' => t.vars.Extends t'.vars)
    (R := fun t f g => g.Reached ∧ (f.Slim → g.Slim) ∧ g.Exhausted stage modes t.vars)
    (fun _ => .refl _) .trans (fun hx hr => ⟨hr.1, hr.2.1, hr.2.2.extends hx⟩) ?_ trivial hrun).2
  intro f hmem t g t' _ hg
  obtain ⟨hreached, hx, hslim, hdone⟩ := splitVars_exhausted (hf f hmem) hg
  exact ⟨trivial, hx, hreached, hslim, hdone⟩

end Function

/-- The run changes nothing, or it stops, and the latter only if `P` fails. -/
def SplitEdit.Rests {α : Type} (P : Prop) (m : SplitEdit α) (a : α) (t : Splitting) : Prop :=
  m.run t = .ok (a, t) ∨ ¬ P ∧ ∃ e, m.run t = .error e

namespace SplitEdit

variable {α β : Type} {P : Prop} {m : SplitEdit α} {a : α} {t : Splitting}

theorem Rests.bind {k : α → SplitEdit β} {b : β} (h : Rests P m a t) (hk : Rests P (k a) b t) :
    Rests P (m >>= k) b t := by
  rcases h with h | ⟨hP, e, he⟩
  · simpa [Rests, StateT.run_bind, h] using hk
  · exact .inr ⟨hP, e, by rw [StateT.run_bind, he]; rfl⟩

theorem Rests.foldlM {step : β → α → SplitEdit β} {b : β} {l : List α}
    (h : ∀ x ∈ l, Rests P (step b x) b t) : Rests P (l.foldlM step b) b t := by
  induction l with
  | nil => exact .inl rfl
  | cons x l ih =>
    rw [List.foldlM_cons]
    exact (h x (by simp)).bind (ih fun y hy => h y (by simp [hy]))

theorem Rests.mapM {step : α → SplitEdit α} {l : List α} (h : ∀ x ∈ l, Rests P (step x) x t) :
    Rests P (l.mapM step) l t := by
  induction l with
  | nil => exact .inl rfl
  | cons x l ih =>
    rw [List.mapM_cons]
    exact (h x (by simp)).bind ((ih fun y hy => h y (by simp [hy])).bind (.inl rfl))

end SplitEdit

namespace Function

variable {f : Function} {i : InstrId} {b : BlockId} {stage : Stage} {modes : Mode} {t : Splitting}

theorem Exhausted.splitVarInstr_rests (h : f.Exhausted stage modes t.vars)
    (hi : f.home? i = some b) : SplitEdit.Rests f.Slim (splitVarInstr stage modes f i) f t := by
  have hnone : ∀ a v root, ¬ f.Splits stage modes t.vars i a v root :=
    fun a v root hs => h i b hi (.inl hs.wants)
  by_cases hp : f.Passes modes t.vars i
  · exact .inl (splitVarInstr_idle hi hp hnone)
  · refine .inr ⟨fun hslim => h i b hi (.inr ⟨?_, hp⟩), ?_⟩
    · by_contra hbig
      exact hp fun a ha hw hk => absurd ((smallAt_access ha).mpr (hslim i b a hi ha hw hk)) hbig
    · cases hrun : (splitVarInstr stage modes f i).run t with
      | error e => exact ⟨e, rfl⟩
      | ok r => exact absurd (splitVarInstr_visit hrun).1 hp

theorem Exhausted.splitVars_rests (h : f.Exhausted stage modes t.vars) (hf : f.Linked) :
    SplitEdit.Rests f.Slim (f.splitVars stage modes) f t :=
  .foldlM fun _ _ => .foldlM fun _ hi => h.splitVarInstr_rests (hf.placed.mem_iff.mp hi)

end Function

namespace Shader

variable {s s' : Shader} {modes : Mode} {stats : SplitStats}

theorem splitVars_exhausted (hf : ∀ f ∈ s.functions, f.Reached)
    (h : s.splitVars modes = .ok (stats, s')) : ∀ g ∈ s'.functions, g.Linked ∧
      g.Exhausted s'.stage modes s'.vars ∧ g.deadDerefs = [] ∧
        ((∀ f ∈ s.functions, f.Slim) → g.Slim) := by
  obtain ⟨gs, t, hgs, hsweep, hstage, hvars, -⟩ := splitVars_run h
  obtain ⟨-, hall⟩ := Function.mapM_splitVars_exhausted hf hgs
  intro g hg
  obtain ⟨k, hk, hrun⟩ := exists_of_forall₂ hsweep hg
  obtain ⟨f, hmem, hreached, hslim, hdone⟩ := exists_of_forall₂ hall hk
  obtain ⟨hdrops, hnone⟩ := Function.sweepWithin_drops hrun
  obtain ⟨S, hshed⟩ := Function.shed_of_drops hdrops
  have hext : t.vars.Extends s'.vars := by
    intro v x hx
    rw [hvars, Variables.get?_foldl_drop, hx]
  rw [hstage]
  exact ⟨Function.linked_of_drops hreached.linked hdrops,
    (hdone.shed hreached.linked hshed).extends hext, hnone,
    fun h => (hslim (h f hmem)).shifts hshed.shifts⟩

theorem splitVars_rests (hf : ∀ f ∈ s.functions, f.Linked ∧ f.Exhausted s.stage modes s.vars ∧
    f.deadDerefs = []) : s.splitVars modes = .ok (.zero, s) ∨
      (¬ ∀ f ∈ s.functions, f.Slim) ∧ ∃ e, s.splitVars modes = .error e := by
  have hrests : SplitEdit.Rests (∀ f ∈ s.functions, f.Slim)
      (s.functions.mapM (Function.splitVars s.stage modes)) s.functions ⟨s.vars, [], .zero⟩ := by
    refine .mapM fun f hmem => ?_
    obtain ⟨hlinked, hdone, -⟩ := hf f hmem
    exact (Function.Exhausted.splitVars_rests hdone hlinked).imp_right
      fun h => ⟨fun hslim => h.1 (hslim f hmem), h.2⟩
  rcases hrests with hrun | ⟨hslim, e, he⟩
  · left
    have hsweep : s.sweepDerefs = .ok (s.hasDeadDeref, s) := by
      rw [sweepDerefs, mapM_sweepDerefs fun f hmem => (hf f hmem).2.2]
      rfl
    rw [splitVars, hrun, ok_bind]
    simp only [Splitting.sources, List.map_nil, List.eraseDups_nil, List.foldl_nil, hsweep]
    rfl
  · exact .inr ⟨hslim, e, by rw [splitVars, he]; rfl⟩

/-- A split leaves no access that it would split and no deref that nobody reads. So a second run,
if it goes through, does nothing, and it goes through unless an access has so many sources that
slots share a record. -/
theorem splitVars_exhausts (hf : ∀ f ∈ s.functions, f.Reached)
    (h : s.splitVars modes = .ok (stats, s')) :
    (∀ f ∈ s'.functions, ∀ i b a v d root x, f.home? i = some b → f.body? i = some (.access a) →
      a.kind.isDerefAccess → a.width ≠ 1 → a.srcs[0]? = some v → f.deref v = .ok (some d) →
      f.derefRoot v = .ok (some root) → s'.vars.get? root = some x → x.canSplit s'.stage →
      ¬ (modes.output ∧ d.mode = .shaderOut) ∧
        (a.kind ≠ .storeDeref → ¬ (modes.input ∧ d.mode = .shaderIn))) ∧
    (∀ f ∈ s'.functions, ∀ i b d, f.home? i = some b → f.body? i = some (.deref d) →
      ∃ v, f.dest? i = some v ∧ ((∃ us u, f.uses? v = some us ∧ u ∈ us) ∨
        ∃ bs c, f.branches? v = some bs ∧ c ∈ bs)) ∧
    (∀ r, s'.splitVars modes = .ok r → r = (.zero, s')) ∧
    ((∀ f ∈ s.functions, f.Slim) → s'.splitVars modes = .ok (.zero, s')) := by
  have hall := splitVars_exhausted hf h
  have hrests := splitVars_rests fun f hmem =>
    ⟨(hall f hmem).1, (hall f hmem).2.1, (hall f hmem).2.2.1⟩
  refine ⟨fun f hmem i b a v d root x hi ha hk hw hv hd hr hx hcan => ?_,
    fun f hmem i b d hi hd => ?_, fun r hr => ?_, fun hslim => ?_⟩
  · have hnot : ¬ Function.splitsAccess a.kind d.mode modes := fun hsplit =>
      (hall f hmem).2.1 i b hi (.inl (Function.Splits.wants ⟨ha, hw, hk, hv, ⟨d, hd, hsplit⟩,
        Function.rooted_of_rootWithin hr, x, hx, hcan⟩))
    constructor
    · rintro ⟨hout, hmode⟩
      exact hnot (by simp [Function.splitsAccess, hout, hmode])
    · rintro hload ⟨hin, hmode⟩
      exact hnot (by simp [Function.splitsAccess, hin, hmode, hload])
  · exact Function.exists_reader (hall f hmem).1.placed (hall f hmem).2.2.1 hi hd
  · rcases hrests with hrun | ⟨-, e, he⟩
    · exact Except.ok.inj (hr.symm.trans hrun)
    · simp [he] at hr
  · rcases hrests with hrun | ⟨hnot, -⟩
    · exact hrun
    · exact absurd (fun f hmem => (hall f hmem).2.2.2 hslim) hnot

end Shader

instance (f : Function) : Decidable f.Slim :=
  decidable_of_iff _ (f.forall_access_iff fun _ a =>
    a.width ≠ 1 → a.kind.isDerefAccess → a.srcs.length ≤ 256)

theorem splitVars_exhausts_arrayShader :
    (Edit.outcome arrayEdits).Reached ∧ (Edit.outcome arrayEdits).Slim ∧
      ∃ stats s', arrayShader.splitVars .inOut = .ok (stats, s') ∧ stats.vars = 2 ∧
        s'.splitVars .inOut = .ok (.zero, s') := by
  have hreached := Function.Reached.outcome arrayEdits
  have hslim : (Edit.outcome arrayEdits).Slim := by decide +kernel
  have hvars : (arrayShader.splitVars .inOut).toOption.any (·.1.vars == 2) = true := by
    decide +kernel
  cases hrun : arrayShader.splitVars .inOut with
  | error e => simp [hrun, Except.toOption] at hvars
  | ok r =>
    obtain ⟨stats, s'⟩ := r
    obtain ⟨-, -, -, hagain⟩ :=
      Shader.splitVars_exhausts (by simpa [arrayShader] using hreached) hrun
    exact ⟨hreached, hslim, stats, s', rfl, by simpa [hrun, Except.toOption] using hvars,
      hagain (by simpa [arrayShader] using hslim)⟩

/-- An input is read, and so is a uniform, by an access with so many sources that its last slot and
its first share a record. -/
def sharedSlotEdits : List Edit :=
  [.insert (.stop ⟨0⟩) (.deref ⟨.var ⟨0⟩, .shaderIn, .floats 2⟩) (some ⟨1, 32⟩),
    .insert (.stop ⟨0⟩) (.deref ⟨.var ⟨1⟩, .ofBits 4, .floats 2⟩) (some ⟨1, 32⟩),
    .insert (.stop ⟨0⟩) (.access ⟨.loadDeref, 2, [⟨0⟩], 0, 0, 0⟩) (some ⟨2, 32⟩),
    .insert (.start ⟨0⟩) (.access ⟨.loadDeref, 2, ⟨1⟩ :: List.replicate 255 ⟨0⟩ ++ [⟨2⟩], 0, 0, 0⟩)
      (some ⟨2, 32⟩)]

def sharedSlotVars : Variables :=
  ⟨⟨#[⟨"uv", .shaderIn, .floats 2, 32, 0, .ofBits 0, 0⟩,
    ⟨"tint", .ofBits 4, .floats 2, 0, 0, .ofBits 0, 0⟩]⟩, [⟨0⟩, ⟨1⟩]⟩

def sharedSlotShader : Shader := ⟨.fragment, sharedSlotVars, [Edit.outcome sharedSlotEdits]⟩

theorem sharedSlotShader_stops_again :
    (Edit.outcome sharedSlotEdits).Reached ∧ sharedSlotVars.Reached ∧
      ∃ stats s', sharedSlotShader.splitVars .shaderIn = .ok (stats, s') ∧
        ∃ e, s'.splitVars .shaderIn = .error e := by
  have hagain : (sharedSlotShader.splitVars .shaderIn).toOption.any
      (·.2.splitVars .shaderIn |>.toOption.isNone) = true := by decide +kernel
  cases hrun : sharedSlotShader.splitVars .shaderIn with
  | error e => simp [hrun, Except.toOption] at hagain
  | ok r =>
    refine ⟨.outcome sharedSlotEdits, .add _ (.add _ .empty), r.1, r.2, rfl, ?_⟩
    cases hsecond : r.2.splitVars .shaderIn with
    | error e => exact ⟨e, rfl⟩
    | ok r' => simp [hrun, hsecond, Except.toOption] at hagain

end ShaderSSA
