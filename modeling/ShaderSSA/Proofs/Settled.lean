import ShaderSSA.Proofs.Dominance
import ShaderSSA.Proofs.Substitution

/-! Values that stay what they are. Where every operand is defined at a dominating point, a run
keeps the equations of the instructions it has passed: doing one of them again would change
nothing, in loops too. -/

namespace ShaderSSA.Function

/-- At the point of `b` where `done` is done, `d` has been done: earlier in the block or in a block
that strictly dominates it. -/
def Before (f : Function) (d : InstrId) (b : BlockId) (done : List InstrId) : Prop :=
  d ∈ done ∨ ∃ c, f.home? d = some c ∧ f.blocks.StrictlyDominates c b

/-- In blocks that can be reached, operands are defined before they are read, and conditions in a
block that dominates the branch. -/
structure DominanceRespecting (f : Function) : Prop where
  operand : ∀ b done i rest s v, f.blocks.Reachable b → f.blockInstrs b = done ++ i :: rest →
    f.reads? ⟨i, s⟩ = some v → ∃ d, f.source? v = some d ∧ f.Before d b done
  condition : ∀ b v, f.blocks.Reachable b → f.condition? b = some v →
    ∃ d c, f.source? v = some d ∧ f.home? d = some c ∧ f.blocks.Dominates c b

variable {f : Function} {vars : Variables} {io : IoState} {b c : BlockId} {d i : InstrId}
  {done rest : List InstrId} {e : Env}

theorem mem_successors_of_next {t : Terminator} (ht : f.terminator? b = some t)
    (hn : e.next t = some (some c)) : c ∈ f.blocks.successors b := by
  rw [successors_eq, ht]
  cases t with
  | ret => simp [Env.next] at hn
  | jump t =>
    obtain rfl : t = c := by simpa [Env.next] using hn
    simp [Terminator.successors]
  | branch v yes no =>
    simp only [Env.next, Option.map_eq_some_iff, Option.some.injEq] at hn
    obtain ⟨x, -, rfl⟩ := hn
    by_cases hx : x.first != 0 <;> simp [Terminator.successors, hx]

theorem Arrives.reachable [FloatOps] (h : Arrives f vars io b done e) : f.blocks.Reachable b := by
  induction h with
  | start => exact .entry fun h => h
  | step _ _ _ ih => exact ih
  | goes _ ht hn ih => exact .step ih (mem_successors_of_next ht hn) fun h => h

theorem Arrives.split [FloatOps] (h : Arrives f vars io b done e) :
    ∃ rest, f.blockInstrs b = done ++ rest := by
  cases h with
  | start => exact ⟨_, rfl⟩
  | @step _ _ i rest _ _ _ hb _ => exact ⟨rest, by simp [hb]⟩
  | goes => exact ⟨_, rfl⟩

theorem Placed.split_unique (hp : f.Placed) {done' rest' : List InstrId}
    (h : f.blockInstrs b = done ++ i :: rest) (h' : f.blockInstrs b = done' ++ i :: rest') :
    done = done' ∧ rest = rest' := by
  have hnd := hp.nodup b
  rw [h] at hnd
  obtain ⟨-, hrest, hapart⟩ := List.nodup_append.mp hnd
  have hnot : i ∉ done := fun hm => hapart i hm i (by simp) rfl
  have hnot' : i ∉ rest := (List.nodup_cons.mp hrest).1
  have hsame := (List.append_cons_inj_of_notMem hnot hnot').mp (h.symm.trans h')
  exact ⟨hsame.1, hsame.2.2⟩

theorem not_before_self (hp : f.Placed) (hb : f.blockInstrs b = done ++ i :: rest) :
    ¬ f.Before i b done := by
  rintro (hi | ⟨c, hc, hdom⟩)
  · have hnd := hp.nodup b
    rw [hb] at hnd
    exact (List.nodup_append.mp hnd).2.2 i hi i (by simp) rfl
  · have hi : f.home? i = some b := hp.mem_iff.mp (by simp [hb])
    obtain rfl : b = c := by simpa [hi] using hc
    exact hdom.1 rfl

theorem Before.position (hp : f.Placed) (hr : f.blocks.Reachable b)
    (hb : f.blockInstrs b = done ++ rest) (h : f.Before d b done) :
    ∃ c pre post, f.home? d = some c ∧ f.blocks.Reachable c ∧
      f.blockInstrs c = pre ++ d :: post ∧
      (c = b ∧ (∀ j ∈ pre, j ∈ done) ∨ f.blocks.StrictlyDominates c b) := by
  rcases h with hd | ⟨c, hc, hdom⟩
  · obtain ⟨pre, post, rfl⟩ := List.append_of_mem hd
    refine ⟨b, pre, post ++ rest, hp.mem_iff.mp (by simp [hb]), hr, by simp [hb], .inl ⟨rfl, ?_⟩⟩
    intro j hj
    simp [hj]
  · obtain ⟨pre, post, hpost⟩ := List.append_of_mem (hp.mem_iff.mpr hc)
    exact ⟨c, pre, post, hc, hdom.2.reachable hr, hpost, .inr hdom⟩

theorem Before.trans (hp : f.Placed) (hr : f.blocks.Reachable b)
    (hb : f.blockInstrs b = done ++ rest) (h : f.Before d b done) {pre post : List InstrId}
    (hc : f.blockInstrs c = pre ++ d :: post) (hi : f.Before i c pre) : f.Before i b done := by
  have hd : f.home? d = some c := hp.mem_iff.mp (by simp [hc])
  rcases h with hdone | ⟨c', hc', hdom⟩
  · obtain ⟨pre', post', rfl⟩ := List.append_of_mem hdone
    have hdb : f.home? d = some b := hp.mem_iff.mp (by simp [hb])
    obtain rfl : c = b := by simpa [hd] using hdb
    obtain ⟨rfl, -⟩ := hp.split_unique hc (show f.blockInstrs c = pre' ++ d :: (post' ++ rest) by
      simp [hb])
    rcases hi with hi | hi
    · exact .inl (by simp [hi])
    · exact .inr hi
  · obtain rfl : c = c' := by simpa [hd] using hc'
    rcases hi with hi | ⟨k, hk, hkdom⟩
    · exact .inr ⟨c, hp.mem_iff.mp (by simp [hc, hi]), hdom⟩
    · exact .inr ⟨k, hk, hkdom.trans hdom hr⟩

theorem reads?_of_mem {body : Body} {v : ValueId} (hi : f.home? i = some b)
    (hbody : f.body? i = some body) (hv : v ∈ body.srcs) : ∃ s, f.reads? ⟨i, s⟩ = some v := by
  obtain ⟨s, hs⟩ := List.getElem?_of_mem hv
  exact ⟨s, reads?_iff.mpr ⟨b, body, hi, hbody, hs⟩⟩

theorem DominanceRespecting.fresh (hdom : f.DominanceRespecting) (hp : f.Placed)
    (hr : f.blocks.Reachable b) (hb : f.blockInstrs b = done ++ i :: rest) {body : Body}
    {v : ValueId} (hd : f.Before d b done ∨ d = i) (hbody : f.body? d = some body)
    (hv : v ∈ body.srcs) : f.source? v ≠ some i := by
  intro hsource
  have hpos : ∃ c pre post, f.home? d = some c ∧ f.blocks.Reachable c ∧
      f.blockInstrs c = pre ++ d :: post ∧ ∀ k, f.Before k c pre → f.Before k b done := by
    rcases hd with hd | rfl
    · obtain ⟨c, pre, post, hc, hcr, hpost, -⟩ := hd.position hp hr hb
      exact ⟨c, pre, post, hc, hcr, hpost, fun k hk => hd.trans hp hr hb hpost hk⟩
    · exact ⟨b, done, rest, hp.mem_iff.mp (by simp [hb]), hr, hb, fun k hk => hk⟩
  obtain ⟨c, pre, post, hc, hcr, hpost, htrans⟩ := hpos
  obtain ⟨s, hs⟩ := reads?_of_mem hc hbody hv
  obtain ⟨k, hk, hbefore⟩ := hdom.operand c pre d post s v hcr hpost hs
  obtain rfl : k = i := by simpa [hk] using hsource
  exact not_before_self hp hb (htrans k hbefore)

theorem holds_apply {dest : Option ValueId} {r : Effect} {v : ValueId} (h : dest ≠ some v) :
    e.Holds v (e.apply dest r) v := by
  cases dest with
  | none => cases r <;> exact ⟨rfl, rfl⟩
  | some w =>
    have hne : v ≠ w := by
      rintro rfl
      exact h rfl
    cases r <;> simp [Env.Holds, Env.apply, Env.define, Env.definePlace, hne]

theorem apply_apply (dest : Option ValueId) (r : Effect) :
    (e.apply dest r).apply dest r = e.apply dest r := by
  cases dest with
  | none => cases r <;> rfl
  | some w =>
    cases r with
    | outputs t => rfl
    | value x =>
      simp only [Env.apply, Option.elim, Env.define, Env.mk.injEq, and_true]
      funext z
      split <;> rfl
    | place p =>
      simp only [Env.apply, Option.elim, Env.definePlace, Env.mk.injEq, and_true, true_and]
      funext z
      split <;> rfl

theorem apply_comm {dest dest' : Option ValueId} {r r' : Effect}
    (hne : ∀ v, dest = some v → dest' ≠ some v) (hr : ∀ t, r' ≠ .outputs t) :
    (e.apply dest r).apply dest' r' = (e.apply dest' r').apply dest r := by
  cases r' with
  | outputs t => exact absurd rfl (hr t)
  | value x =>
    cases dest' with
    | none => rfl
    | some w =>
      cases dest with
      | none => cases r <;> rfl
      | some v =>
        have hvw : w ≠ v := by
          rintro rfl
          exact hne w rfl rfl
        cases r with
        | value y =>
          simp only [Env.apply, Option.elim, Env.define, Env.mk.injEq, and_true]
          funext z
          by_cases hzw : z = w
          · simp [hzw, hvw]
          · simp [hzw]
        | _ => rfl
  | place p =>
    cases dest' with
    | none => rfl
    | some w =>
      cases dest with
      | none => cases r <;> rfl
      | some v =>
        have hvw : w ≠ v := by
          rintro rfl
          exact hne w rfl rfl
        cases r with
        | place q =>
          simp only [Env.apply, Option.elim, Env.definePlace, Env.mk.injEq, and_true, true_and]
          funext z
          by_cases hzw : z = w
          · simp [hzw, hvw]
          · simp [hzw]
        | _ => rfl

theorem effect_ne_outputs [FloatOps] {dest : Option Shape} {body : Body} {r : Effect}
    (hpure : body.access? = none) (h : e.effect vars dest body = some r) (t : Channels) :
    r ≠ .outputs t := by
  rintro rfl
  cases body with
  | access a => simp [Body.access?] at hpure
  | const l =>
    simp only [Env.effect] at h
    split at h <;> simp at h
  | _ => simp [Env.effect] at h

/-- Doing an instruction again that has been done changes nothing. -/
theorem settled [FloatOps] (hp : f.Placed) (hdef : f.Defined) (hdom : f.DominanceRespecting)
    (ha : Arrives f vars io b done e) (hd : f.Before d b done) {body : Body}
    (hbody : f.body? d = some body) (hpure : body.access? = none) :
    f.step? vars d e = some e := by
  induction ha generalizing d body with
  | start =>
    rcases hd with hd | ⟨c, -, hc⟩
    · simp at hd
    · exact absurd hc Blocks.not_strictlyDominates_entry
  | @goes b e t c _ ht hn ih =>
    refine ih ?_ hbody hpure
    rcases hd with hd | ⟨k, hk, hkc⟩
    · simp at hd
    · have hkb := hkc.dominates_pred (mem_successors_of_next ht hn)
      by_cases hne : k = b
      · exact .inl (hp.mem_iff.mpr (hne ▸ hk))
      · exact .inr ⟨k, hk, hne, hkb⟩
  | @step b done i rest e e' ha hb hi ih =>
    have hr := ha.reachable
    simp only [step?, Option.bind_eq_some_iff, Option.map_eq_some_iff] at hi
    obtain ⟨bodyI, hbodyI, r, heff, rfl⟩ := hi
    have hcase : f.Before d b done ∨ d = i := by
      rcases hd with hd | hd
      · rcases List.mem_append.mp hd with hd | hd
        · exact .inl (.inl hd)
        · exact .inr (by simpa using hd)
      · exact .inl (.inr hd)
    have hsame : (e.apply (f.dest? i) r).effect vars (f.destShape? d) body =
        e.effect vars (f.destShape? d) body := by
      refine Env.effect_congr hpure fun v hv => holds_apply ?_
      intro hdest
      exact hdom.fresh hp hr hb hcase hbody hv ((hdef.iff i v).mp hdest)
    simp only [step?, hbody, Option.bind_some, hsame]
    rcases hcase with hbefore | rfl
    · have hold := ih hbefore hbody hpure
      simp only [step?, hbody, Option.bind_some, Option.map_eq_some_iff] at hold
      obtain ⟨r', heff', hkeep⟩ := hold
      have hne : ∀ v, f.dest? i = some v → f.dest? d ≠ some v := by
        intro v hiv hdv
        have h₁ := (hdef.iff i v).mp hiv
        have h₂ := (hdef.iff d v).mp hdv
        obtain rfl : i = d := by simpa [h₁] using h₂
        exact not_before_self hp hb hbefore
      rw [heff', Option.map_some, apply_comm hne (effect_ne_outputs hpure heff'), hkeep]
    · obtain rfl : bodyI = body := by simpa [hbodyI] using hbody
      rw [heff, Option.map_some, apply_apply]

end ShaderSSA.Function
