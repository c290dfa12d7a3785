import ShaderSSA.Proofs.Views
import ShaderSSA.Split.Variables

/-! What builds keep to. One predicate says of a build when it may fail, how the instructions it
puts in relate what was there before to what is there after, and what holds in the end. The accounts
that are given of builds, with channel variables and without, differ in the relation alone. -/

namespace ShaderSSA

theorem lift_ok_bind {σ α β : Type} (a : α) (k : α → StateT σ Checked β) :
    ((liftM (.ok a : Checked α) : StateT σ Checked α) >>= k) = k a := rfl

theorem lift_bind_eq_ok {σ α β : Type} {x : Checked α} {k : α → StateT σ Checked β} {s : σ}
    {r : β × σ} : ((liftM x : StateT σ Checked α) >>= k).run s = .ok r ↔
      ∃ a, x = .ok a ∧ (k a).run s = .ok r := by
  cases x with
  | error e => simp [liftM, monadLift, MonadLift.monadLift, StateT.lift, StateT.run, bind,
      StateT.bind, Except.bind]
  | ok a => simp [lift_ok_bind]

/-- What runs may do to a state, of which `view` is looked at. They start and end where the state is
`ready`, and `rel` relates what is seen before and after by the instructions that were put in. -/
structure Conduct {σ ν : Type} (view : σ → ν) where
  ready : σ → Prop
  rel : ν → List InstrId → ν → Prop
  refl : ∀ {s}, ready s → rel (view s) [] (view s)
  trans : ∀ {s s' news more y}, ready s → ready s' → rel (view s) news (view s') →
    rel (view s') more y → rel (view s) (news ++ more) y

/-- Wherever `x` is seen, `m` keeps to the conduct and does what `Q` says, or it fails and may. -/
def Obeys {σ ν α : Type} {view : σ → ν} (lax : Prop) (E : Conduct view) (m : StateT σ Checked α)
    (x : ν) (Q : α → List InstrId → ν → Prop) : Prop :=
  ∀ s, view s = x → E.ready s → Checked.Gives lax (m.run s) fun r =>
    E.ready r.2 ∧ ∃ news, E.rel x news (view r.2) ∧ Q r.1 news (view r.2)

namespace Obeys

variable {σ ν α β : Type} {view : σ → ν} {lax : Prop} {E : Conduct view} {m : StateT σ Checked α}
  {k : α → StateT σ Checked β} {x : ν} {s s' : σ} {a : α} {c : Checked α}
  {Q Q' : α → List InstrId → ν → Prop} {R : β → List InstrId → ν → Prop}

theorem pure (h : Q a [] x) : Obeys lax E (Pure.pure a) x Q := by
  rintro s rfl hs
  exact ⟨hs, [], E.refl hs, h⟩

theorem bind (h : Obeys lax E m x Q)
    (hk : ∀ a news y, E.rel x news y → Q a news y →
      Obeys lax E (k a) y fun b more z => R b (news ++ more) z) : Obeys lax E (m >>= k) x R := by
  rintro s rfl hs
  rw [StateT.run_bind]
  refine (h s rfl hs).bind ?_
  rintro ⟨a, s'⟩ ⟨hs', news, hrel, hq⟩
  refine (hk a news _ hrel hq s' rfl hs').imp ?_
  rintro ⟨b, s''⟩ ⟨hs'', more, hrel', hr⟩
  exact ⟨hs'', news ++ more, E.trans hs hs' hrel hrel', hr⟩

theorem imp (h : Obeys lax E m x Q) (hq : ∀ a news y, E.rel x news y → Q a news y → Q' a news y) :
    Obeys lax E m x Q' := by
  intro s hx hs
  refine (h s hx hs).imp ?_
  rintro ⟨a, s'⟩ ⟨hs', news, hrel, hqa⟩
  exact ⟨hs', news, hrel, hq a news _ hrel hqa⟩

theorem of_ready (h : ∀ s, view s = x → E.ready s → Obeys lax E m x Q) : Obeys lax E m x Q :=
  fun s hx hs => h s hx hs s hx hs

/-- A step that looks and leaves all as it is. -/
theorem read (hm : ∀ s, view s = x → m.run s = .ok (a, s)) (h : Obeys lax E (k a) x R) :
    Obeys lax E (m >>= k) x R := by
  intro s hx hs
  rw [StateT.run_bind, hm s hx, ok_bind]
  exact h s hx hs

theorem ok (hc : c = .ok a) (h : Obeys lax E (k a) x R) : Obeys lax E (liftM c >>= k) x R := by
  rw [hc, lift_ok_bind]
  exact h

theorem checked (h : ∀ a, c = .ok a → Obeys True E (k a) x R) :
    Obeys True E (liftM c >>= k) x R := by
  cases c with
  | ok a => exact h a rfl
  | error e => exact fun _ _ _ => trivial

theorem lift (h : ∀ a, c = .ok a → Q a [] x) : Obeys True E (liftM c) x Q := by
  rw [← bind_pure (liftM c)]
  exact .checked fun a ha => .pure (h a ha)

/-- What each step establishes holds in the end if the steps after it keep it. -/
theorem mapM {γ δ : Type} {m : γ → StateT σ Checked δ} {I : ν → Prop}
    {T : γ → δ → List InstrId → ν → Prop} {l : List γ}
    (hI : ∀ y news z, E.rel y news z → I y → I z)
    (hT : ∀ b d ns y news z, E.rel y news z → T b d ns y → T b d ns z)
    (hm : ∀ b ∈ l, ∀ y, I y → Obeys lax E (m b) y (T b)) (hx : I x) :
    Obeys lax E (l.mapM m) x fun ds news z => ∃ ps : List (δ × List InstrId),
      ds = ps.map (·.1) ∧ news = ps.flatMap (·.2) ∧
        List.Forall₂ (fun b p => T b p.1 p.2 z) l ps := by
  induction l generalizing x with
  | nil => exact .pure ⟨[], rfl, rfl, .nil⟩
  | cons b l ih =>
    rw [List.mapM_cons]
    refine (hm b List.mem_cons_self x hx).bind fun d ns y hy hd => ?_
    refine (ih (fun c hc => hm c (List.mem_cons_of_mem b hc)) (hI x ns y hy hx)).bind ?_
    rintro _ _ z hz ⟨ps, rfl, rfl, hall⟩
    exact .pure ⟨(d, ns) :: ps, rfl, by simp, .cons (hT b d ns y _ z hz hd) hall⟩

end Obeys

section Builds

variable {β : Type} {lax : Prop} {E : Conduct Builder.func} {f : Function} {v : ValueId}
  {R : β → List InstrId → Function → Prop}

theorem Obeys.func {k : Function → Build β} (h : Obeys lax E (k f) f R) :
    Obeys lax E (Build.func >>= k) f R :=
  .read (by rintro _ rfl; rfl) h

theorem Obeys.shape {k : Shape → Build β} (h : ∀ s, f.shape? v = some s → Obeys True E (k s) f R) :
    Obeys True E (Build.shape v >>= k) f R := by
  unfold Build.shape
  rw [bind_assoc]
  refine .func ?_
  rw [bind_assoc]
  refine .checked fun x hx => ?_
  rw [pure_bind]
  exact h x.shape (by simp [Function.shape?, Function.value_eq_ok.mp hx])

theorem Obeys.derefOf {e : Breach} {k : Deref → Build β}
    (h : ∀ d, f.deref v = .ok (some d) → Obeys True E (k d) f R) :
    Obeys True E (Build.derefOf v e >>= k) f R := by
  unfold Build.derefOf
  rw [bind_assoc]
  refine .func ?_
  rw [bind_assoc]
  refine .checked fun x hx => .checked fun d hd => h d ?_
  rw [Function.deref, hx]
  exact congrArg Except.ok (Checked.orElse_eq_ok.mp hd)

theorem Obeys.insertValue {body : Body} {s : Shape} {Q : InstrId → List InstrId → Function → Prop}
    {R : ValueId → List InstrId → Function → Prop}
    (h : Obeys True E (Build.insert body (some s)) f Q)
    (hq : ∀ n v news g, E.rel f news g → Q n news g → g.dest? n = some v → R v news g) :
    Obeys True E (Build.insertValue body s) f R := by
  refine h.bind fun n news g hrel hn => .func (.checked fun x hx => .lift fun v hv => ?_)
  rw [List.append_nil]
  refine hq n v news g hrel hn ?_
  rw [Function.dest?, Function.instr_eq_ok.mp hx]
  exact Checked.orElse_eq_ok.mp hv

theorem Obeys.aluSwizzled {op : AluOp} {srcs : List Operand} {width : Nat}
    {R : ValueId → List InstrId → Function → Prop}
    (h : ∀ bits, Obeys True E (Build.insertValue (.alu ⟨op, srcs⟩) ⟨width, bits⟩) f R) :
    Obeys True E (Build.aluSwizzled op srcs width) f R := by
  unfold Build.aluSwizzled
  cases srcs.getLast? with
  | none => exact h 32
  | some o => exact .shape fun s _ => h s.bits

end Builds

/-- What is looked at while channel variables are being created. -/
def ChannelBuild.view (t : Splitting × Builder) : Splitting × Function := (t.1, t.2.func)

/-- As long as the channel variables are those of `s`, to keep to `E` is to keep to `F`. -/
def Conduct.Carries (F : Conduct ChannelBuild.view) (s : Splitting) (E : Conduct Builder.func) :
    Prop :=
  ∀ b, F.ready (s, b) → E.ready b ∧ ∀ b' news, E.ready b' → E.rel b.func news b'.func →
    F.ready (s, b') ∧ F.rel (s, b.func) news (s, b'.func)

section ChannelBuilds

variable {α β : Type} {lax : Prop} {E : Conduct Builder.func} {F : Conduct ChannelBuild.view}
  {s : Splitting} {f : Function} {R : β → List InstrId → Splitting × Function → Prop}

theorem Obeys.splitting {k : Splitting → ChannelBuild β} (h : Obeys lax F (k s) (s, f) R) :
    Obeys lax F (ChannelBuild.splitting >>= k) (s, f) R :=
  .read (by rintro _ ⟨⟩; rfl) h

theorem Obeys.liftFunc {k : Function → ChannelBuild β} (h : Obeys lax F (k f) (s, f) R) :
    Obeys lax F ((liftM Build.func : ChannelBuild Function) >>= k) (s, f) R :=
  .read (by rintro _ ⟨⟩; rfl) h

theorem Obeys.carried {m : Build α} {Q : α → List InstrId → Function → Prop} (hF : F.Carries s E)
    (h : Obeys lax E m f Q) :
    Obeys lax F (liftM m : ChannelBuild α) (s, f) fun a news p => p.1 = s ∧ Q a news p.2 := by
  rintro ⟨_, b⟩ ⟨⟩ hb
  obtain ⟨hready, hback⟩ := hF b hb
  refine (h b rfl hready).bind ?_
  rintro ⟨a, b'⟩ ⟨hb', news, hrel, hq⟩
  obtain ⟨hb'', hrel'⟩ := hback b' news hb' hrel
  exact ⟨hb'', news, hrel', rfl, hq⟩

end ChannelBuilds

end ShaderSSA
