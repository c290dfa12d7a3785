import ShaderSSA.Split.Flat
import ShaderSSA.Proofs.Consistency
import ShaderSSA.Proofs.SplitMoves
import ShaderSSA.Proofs.Stacks

/-! Histories in which merges, splits and sweeps occur between the edits. One that goes through,
wherever it is tried, has done nothing but edits, so such a history leads nowhere that edits alone
do not. -/

namespace ShaderSSA

/-- What a caller can do to a function: single edits, and what is made of them. -/
inductive Operation where
  | edit (e : Edit)
  | mergePair (a b : InstrId) (limit : Nat)
  | merge (limit : Nat) (stats : MergeStats)
  | splitFlat (modes : Mode) (stats : SplitStats)
  | splitVars (stage : Stage) (modes : Mode) (s : Splitting)
  | sweepDerefs

namespace Operation

def apply (f : Function) : Operation → Checked Function
  | edit e => e.apply f
  | mergePair a b limit => return (← f.merge? a b limit).elim f (·.2)
  | merge limit stats => return (← f.mergeAll limit stats).2.2
  | splitFlat modes stats => return (← (f.splitFlat modes).run stats).1
  | splitVars stage modes s => return (← (f.splitVars stage modes).run s).1
  | sweepDerefs => f.sweepDerefs

def applyAll (ops : List Operation) (f : Function) : Checked Function := ops.foldlM apply f

/-- The function that a history leads to, or an empty one if it fails. -/
def outcome (ops : List Operation) : Function :=
  match applyAll ops (.ofName "main") with
  | .ok f => f
  | .error _ => .ofName "main"

end Operation

namespace Function

/-- Some edits lead from `f` to `g`. -/
abbrev Edits := Relation.ReflTransGen fun f g : Function => ∃ e : Edit, e.apply f = .ok g

/-- The function that some history of operations leads to, none of which fails. -/
def Attained (f : Function) : Prop := ∃ name ops, Operation.applyAll ops (ofName name) = .ok f

theorem Attained.outcome (ops : List Operation) : (Operation.outcome ops).Attained := by
  unfold Operation.outcome
  split
  · rename_i f hf
    exact ⟨"main", ops, hf⟩
  · exact ⟨"main", [], rfl⟩

end Function

variable {f g : Function} {wide : ValueId} {h : Half} {limit : Nat} {i : InstrId}

theorem foldlM_edits {σ α : Type} {step : σ → α → Checked σ} (func : σ → Function)
    (hstep : ∀ s x s', step s x = .ok s' → Function.Edits (func s) (func s')) {l : List α}
    {s s' : σ} (h : l.foldlM step s = .ok s') : Function.Edits (func s) (func s') := by
  induction l generalizing s with
  | nil =>
    obtain rfl := pure_eq_ok.mp h
    exact .refl
  | cons x l ih =>
    rw [List.foldlM_cons, bind_eq_ok] at h
    obtain ⟨t, ht, h⟩ := h
    exact (hstep s x t ht).trans (ih h)

theorem apply_insert {c : Cursor} {body : Body} {dest : Option Shape} {n : InstrId}
    (h : f.insert c body dest = .ok (n, g)) : (Edit.insert c body dest).apply f = .ok g := by
  rw [Edit.apply, h]
  rfl

theorem exists_setSwizzle {s : Nat} {e : Breach} {k : Swizzle → Checked Swizzle}
    (h : f.modifySwizzle i s e k = .ok g) : ∃ w, (Edit.setSwizzle i s w).apply f = .ok g := by
  obtain ⟨x, a, o, w, hx, ha, ho, -, hg⟩ := Function.modifySwizzle_eq_ok.mp h
  have hset : f.setSwizzle i s w = .ok g :=
    Function.modifySwizzle_eq_ok.mpr ⟨x, a, o, w, hx, ha, ho, rfl, hg⟩
  exact ⟨w, hset⟩

/-- Whenever the build succeeds, edits lead to the function it leaves. -/
abbrev Build.Edits {α : Type} (m : Build α) (f : Function) : Prop :=
  m.Leads (fun f g => ∃ e : Edit, e.apply f = .ok g) f fun _ _ => True

namespace Build

theorem Edits.build {α : Type} {m : Build α} {c : Cursor} {a : α} (hm : m.Edits f)
    (h : f.build c m = .ok (a, g)) : Function.Edits f g := by
  obtain ⟨⟨a', b⟩, hrun, h⟩ := bind_eq_ok.mp h
  cases h
  obtain ⟨-, _, hedits, -⟩ := (hm _ rfl trivial).of_ok hrun
  exact hedits

theorem Edits.mapM {α β : Type} {m : α → Build β} {l : List α} (hm : ∀ x f, (m x).Edits f) :
    (l.mapM m).Edits f :=
  (Obeys.mapM (E := leading _) (I := fun _ => True) (T := fun _ _ _ _ => True)
    (fun _ _ _ _ _ => trivial) (fun _ _ _ _ _ _ _ _ => trivial) (fun x _ y _ => hm x y)
    trivial).imp fun _ _ _ _ _ => trivial

theorem insert_edits (body : Body) (dest : Option Shape) : (insert body dest).Edits f := by
  rintro ⟨f, c⟩ rfl -
  refine .of_forall ?_
  rintro ⟨n, b⟩ hrun
  exact ⟨trivial, [], .single ⟨_, apply_insert (insert_of_run hrun).1⟩, trivial⟩

theorem insertValue_edits (body : Body) (shape : Shape) : (insertValue body shape).Edits f :=
  .insertValue (insert_edits body (some shape)) fun _ _ _ _ _ _ _ => trivial

theorem aluSwizzled_edits (op : AluOp) (srcs : List Operand) (width : Nat) :
    (aluSwizzled op srcs width).Edits f :=
  .aluSwizzled fun _ => insertValue_edits _ _

theorem vec_edits (scalars : List ValueId) : (vec scalars).Edits f := by
  unfold vec
  split
  · exact .pure trivial
  · exact .checked fun _ _ => aluSwizzled_edits _ _ _

theorem swizzle_edits (v : ValueId) (lanes : List Nat) : (swizzle v lanes).Edits f := by
  refine .shape fun s _ => ?_
  split
  · exact .pure trivial
  · exact .checked fun _ _ => aluSwizzled_edits _ _ _

theorem materialize_edits (o : Operand) (n : Nat) : (materialize o n).Edits f := by
  refine .shape fun s _ => ?_
  dsimp only
  split
  · exact .pure trivial
  · exact .checked fun _ _ => .checked fun _ _ => aluSwizzled_edits _ _ _

end Build

namespace Rewiring

variable {r r' : Rewiring}

theorem copied_edits {v : ValueId} (hc : r.copied wide h = .ok (v, r')) :
    Function.Edits r.func r'.func := by
  unfold copied at hc
  split at hc
  · cases hc
    exact .refl
  · obtain ⟨⟨v', g⟩, hbuild, hc⟩ := bind_eq_ok.mp hc
    have hg := (Build.swizzle_edits _ _).build hbuild
    dsimp only at hc
    split at hc
    · cases hc
      exact hg
    · obtain ⟨x, -, hc⟩ := bind_eq_ok.mp hc
      cases hc
      exact hg

theorem aluReader_edits {u : Use} (hr : r.aluReader wide h u = .ok r') :
    Function.Edits r.func r'.func := by
  obtain ⟨g, hg, hr⟩ := bind_eq_ok.mp hr
  refine .head ⟨.replaceSource u.instr u.slot wide, hg⟩ ?_
  dsimp only at hr
  split at hr
  · cases hr
    exact .refl
  · obtain ⟨read, -, hr⟩ := bind_eq_ok.mp hr
    obtain ⟨k, hk, hr⟩ := bind_eq_ok.mp hr
    cases hr
    obtain ⟨w, hw⟩ := exists_setSwizzle hk
    exact .single ⟨_, hw⟩

theorem reader_edits {u : Use} (hr : reader wide h r u = .ok r') :
    Function.Edits r.func r'.func := by
  obtain ⟨x, -, hr⟩ := bind_eq_ok.mp hr
  split at hr
  · exact aluReader_edits hr
  · obtain ⟨⟨v, r₁⟩, hc, hr⟩ := bind_eq_ok.mp hr
    obtain ⟨g, hg, hr⟩ := bind_eq_ok.mp hr
    cases hr
    exact (copied_edits hc).tail ⟨.replaceSource u.instr u.slot v, hg⟩

theorem branch_edits {b : BlockId} (hr : branch wide h r b = .ok r') :
    Function.Edits r.func r'.func := by
  obtain ⟨⟨v, r₁⟩, hc, hr⟩ := bind_eq_ok.mp hr
  obtain ⟨g, hg, hr⟩ := bind_eq_ok.mp hr
  cases hr
  exact (copied_edits hc).tail ⟨.setCondition b v, hg⟩

theorem half_edits (hr : half wide r h = .ok r') : Function.Edits r.func r'.func := by
  simp only [half, bind_eq_ok] at hr
  obtain ⟨x, -, r₁, hreaders, y, -, r₂, hbranches, z, -, -, -, hr⟩ := hr
  cases hr
  have h₁ := foldlM_edits Rewiring.func (fun _ _ _ => reader_edits) hreaders
  have h₂ := foldlM_edits Rewiring.func (fun _ _ _ => branch_edits) hbranches
  exact h₁.trans h₂

end Rewiring

theorem merge?_edits {a b : InstrId} {m : Merged} (hm : f.merge? a b limit = .ok (some (m, g))) :
    Function.Edits f g := by
  simp only [Function.merge?, bind_eq_ok] at hm
  obtain ⟨⟨aluA, destA⟩, -, ⟨aluB, destB⟩, -, -, -, x, -, y, -, -, -, hm⟩ := hm
  split at hm
  · cases hm
  · simp only [bind_eq_ok] at hm
    obtain ⟨srcs, -, ⟨n, f₁⟩, hins, z, -, wide, -, r, hhalves, f₂, hrem, f₃, hrem', hm⟩ := hm
    cases hm
    have hr := foldlM_edits Rewiring.func (fun _ _ _ => Rewiring.half_edits) hhalves
    have hstart : Function.Edits f f₁ := .single ⟨_, apply_insert hins⟩
    exact ((hstart.trans hr).tail ⟨.remove a, hrem⟩).tail ⟨.remove b, hrem'⟩

theorem mergeInto_edits {stack : List Entry} {refused : Nat} {hit : Hit}
    (hm : mergeInto f i limit stack = .ok (refused, some hit)) : Function.Edits f hit.func := by
  induction stack generalizing refused hit with
  | nil => cases hm
  | cons e below ih =>
    rw [mergeInto, bind_eq_ok] at hm
    obtain ⟨o, ho, hm⟩ := hm
    cases o with
    | some p =>
      cases hm
      exact merge?_edits ho
    | none =>
      obtain ⟨⟨refused', hit'⟩, hrest, hm⟩ := bind_eq_ok.mp hm
      cases hit' with
      | none => cases hm
      | some hit' =>
        have hbelow : Function.Edits f hit'.func := ih hrest
        cases hm
        exact hbelow

namespace Walk

variable {w w' : Walk} {b : BlockId}

theorem add_edits (ha : w.add limit i = .ok w') : Function.Edits w.func w'.func := by
  obtain ⟨o, -, ha⟩ := bind_eq_ok.mp ha
  cases o with
  | none =>
    cases ha
    exact .refl
  | some key =>
    obtain ⟨⟨refused, hit⟩, hm, ha⟩ := bind_eq_ok.mp ha
    cases hit with
    | none =>
      cases ha
      exact .refl
    | some hit =>
      refine (mergeInto_edits hm).trans ?_
      exact foldlM_edits Walk.func (fun w j w' hr => by rw [(idles_of_reclassify hr).func]) ha

theorem visit_edits {v : DominatorTree.Visit} (hv : w.visit limit v = .ok w') :
    Function.Edits w.func w'.func := by
  cases v with
  | enter b =>
    refine foldlM_edits Walk.func (fun w j w' hj => ?_) hv
    obtain ⟨x, -, hj⟩ := bind_eq_ok.mp hj
    split at hj
    · cases hj
      exact .refl
    · exact add_edits hj
  | leave b =>
    rw [(idles_of_foldlM (fun _ _ _ => idles_of_drop) hv).func]

end Walk

namespace Function

theorem mergeAll_edits {totals totals' : MergeStats} {changed : Bool}
    (hm : f.mergeAll limit totals = .ok (changed, totals', g)) : Edits f g := by
  obtain ⟨⟨changed', counts, g'⟩, hm, hrest⟩ := bind_eq_ok.mp hm
  obtain ⟨_, -, hrest⟩ := bind_eq_ok.mp hrest
  cases hrest
  obtain ⟨w, hw, hm⟩ := bind_eq_ok.mp hm
  obtain ⟨-, -, hm⟩ := bind_eq_ok.mp hm
  cases hm
  have htour := foldlM_edits Walk.func (fun _ _ _ => Walk.visit_edits) hw
  have hstart : Edits f f.requireDominance.2 := .single ⟨.requireDominance, rfl⟩
  exact (hstart.trans htour).tail ⟨.preserve .all, rfl⟩

theorem loadChannels_edits (a : Access) (bits : Nat) (offset : ValueId) :
    (loadChannels a bits offset).Edits f :=
  (Build.Edits.mapM fun _ _ => .checked fun _ _ => Build.insertValue_edits _ _).bind
    fun _ _ _ _ _ => Build.vec_edits _

theorem storeChannel_edits (a : Access) (v offset : ValueId) (k : Nat) :
    (storeChannel a v offset k).Edits f := by
  refine .checked fun bit _ => ?_
  split
  · exact .pure trivial
  · refine (Build.swizzle_edits v [k]).bind fun lane _ g _ _ => .checked fun c _ => ?_
    have hstore : (Build.storeOutput lane offset a.base c 1).Edits g :=
      .shape fun _ _ => Build.insert_edits _ _
    exact hstore.bind fun _ _ _ _ _ => .pure trivial

theorem storeChannels_edits (a : Access) (stored offset : ValueId) :
    (storeChannels a stored offset).Edits f :=
  (Build.materialize_edits _ _).bind fun v _ _ _ _ =>
    Build.Edits.mapM fun k _ => storeChannel_edits a v offset k

section Splits

variable {stats stats' : SplitStats} {t t' : Splitting} {modes : Mode} {stage : Stage}

theorem splitLoad_edits {dest : Option ValueId} {a : Access}
    (h : (f.splitLoad i dest a).run stats = .ok (g, stats')) : Edits f g := by
  simp only [splitLoad, lift_bind_eq_ok] at h
  obtain ⟨v, -, x, -, offset, -, ⟨w, f₁⟩, hbuild, f₂, huses, f₃, hrem, h⟩ := h
  cases h
  exact (((loadChannels_edits a _ offset).build hbuild).tail ⟨.replaceUses v w, huses⟩).tail
    ⟨.remove i, hrem⟩

theorem splitStore_edits {a : Access}
    (h : (f.splitStore i a).run stats = .ok (g, stats')) : Edits f g := by
  simp only [splitStore, lift_bind_eq_ok] at h
  obtain ⟨offset, -, stored, -, ⟨written, f₁⟩, hbuild, f₂, hrem, h⟩ := h
  cases h
  exact ((storeChannels_edits a stored offset).build hbuild).tail ⟨.remove i, hrem⟩

theorem splitFlatInstr_edits (h : (splitFlatInstr modes f i).run stats = .ok (g, stats')) :
    Edits f g := by
  obtain ⟨x, -, h⟩ := lift_bind_eq_ok.mp h
  cases hb : x.body with
  | access a =>
    rw [hb] at h
    dsimp only at h
    split at h
    · cases h
      exact .refl
    · split at h
      · split at h
        · exact splitLoad_edits h
        · cases h
          exact .refl
      · split at h
        · exact splitStore_edits h
        · cases h
          exact .refl
      · cases h
        exact .refl
  | _ =>
    rw [hb] at h
    cases h
    exact .refl

theorem edits_of_moves {root : VarId} {May : ValueId → Prop} {Emits : Prop}
    {p q : Splitting × Function} (h : Relation.ReflTransGen (Splitting.Moves root May Emits) p q) :
    Edits p.2 q.2 := by
  induction h with
  | refl => exact .refl
  | tail _ hstep ih =>
    cases hstep with
    | create => exact ih
    | insert hi =>
      obtain ⟨c, body, dest, n, hi, -⟩ := hi
      exact ih.tail ⟨_, apply_insert hi⟩

theorem splitVarInstr_edits (h : (splitVarInstr stage modes f i).run t = .ok (g, t')) :
    Edits f g := by
  rcases splitVarInstr_cases h with ⟨rfl, -⟩ | ⟨a, target, root, -, hsplit⟩
  · exact .refl
  · cases hsplit with
    | load _ _ hm _ _ huses hrem =>
      exact ((edits_of_moves hm).tail ⟨.replaceUses _ _, huses⟩).tail ⟨.remove i, hrem⟩
    | store _ hm _ hrem => exact (edits_of_moves hm).tail ⟨.remove i, hrem⟩

theorem foldlM_run_edits {σ α : Type} {step : Function → α → StateT σ Checked Function}
    (hstep : ∀ f x s g s', (step f x).run s = .ok (g, s') → Edits f g) {l : List α} {s s' : σ}
    (h : (l.foldlM step f).run s = .ok (g, s')) : Edits f g := by
  induction l generalizing f s with
  | nil =>
    cases h
    exact .refl
  | cons x l ih =>
    rw [List.foldlM_cons, StateT.run_bind, bind_eq_ok] at h
    obtain ⟨⟨k, s₁⟩, hx, hl⟩ := h
    exact (hstep f x s k s₁ hx).trans (ih hl)

end Splits

theorem sweepWithin_edits {rounds : Nat} (h : sweepWithin rounds f = .ok g) : Edits f g := by
  induction rounds generalizing f with
  | zero => cases h
  | succ rounds ih =>
    rw [sweepWithin] at h
    split at h
    · cases h
      exact .refl
    · obtain ⟨k, hk, h⟩ := bind_eq_ok.mp h
      exact (foldlM_edits id (fun _ j _ hj => .single ⟨.remove j, hj⟩) hk).trans (ih h)

theorem operation_edits {op : Operation} (h : op.apply f = .ok g) : Edits f g := by
  cases op with
  | edit e => exact .single ⟨e, h⟩
  | mergePair a b limit =>
    obtain ⟨o, hm, h⟩ := bind_eq_ok.mp h
    cases h
    cases o with
    | none => exact .refl
    | some p => exact merge?_edits hm
  | merge limit stats =>
    obtain ⟨⟨changed, stats', g'⟩, hm, h⟩ := bind_eq_ok.mp h
    cases h
    exact mergeAll_edits hm
  | splitFlat modes stats =>
    obtain ⟨⟨g', stats'⟩, hs, h⟩ := bind_eq_ok.mp h
    cases h
    exact foldlM_run_edits
      (fun _ _ _ _ _ => foldlM_run_edits fun _ _ _ _ _ => splitFlatInstr_edits) hs
  | splitVars stage modes s =>
    obtain ⟨⟨g', s'⟩, hs, h⟩ := bind_eq_ok.mp h
    cases h
    exact foldlM_run_edits
      (fun _ _ _ _ _ => foldlM_run_edits fun _ _ _ _ _ => splitVarInstr_edits) hs
  | sweepDerefs => exact sweepWithin_edits h

theorem Edits.reached (h : Edits f g) (hf : f.Reached) : g.Reached := by
  induction h with
  | refl => exact hf
  | tail _ he ih =>
    obtain ⟨e, he⟩ := he
    exact ih.apply he

theorem Attained.reached (hf : f.Attained) : f.Reached := by
  obtain ⟨name, ops, hops⟩ := hf
  have hedits : Edits (ofName name) f := foldlM_edits id (fun _ _ _ => operation_edits) hops
  exact hedits.reached (.ofName name)

end Function

end ShaderSSA
