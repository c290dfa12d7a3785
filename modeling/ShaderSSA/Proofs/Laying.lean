import ShaderSSA.Proofs.Building

/-! Where a build that succeeds puts its instructions. They stand right before the given one, in
the order in which they were built, and nothing is asked of the function but that edits led to
it. -/

namespace ShaderSSA

theorem Checked.maskBit_eq_ok {m i : Nat} {b : Bool} :
    maskBit m i = .ok b ↔ i < 8 ∧ m.testBit i = b := by
  unfold maskBit
  split <;> simp_all

theorem Operand.select_ok {v : ValueId} {lanes : List Nat} {o : Operand}
    (h : Operand.select v lanes = .ok o) :
    o.value = v ∧ o.swizzle.toList.take lanes.length = lanes := by
  have hlen : 1 ≤ lanes.length ∧ lanes.length ≤ 4 := by
    unfold Operand.select at h
    cases hl : lanes.getLast? with
    | none => simp [hl] at h
    | some last =>
      have hne : lanes ≠ [] := by
        rintro rfl
        simp at hl
      refine ⟨List.length_pos_iff.mpr hne, ?_⟩
      by_contra h4
      simp [hl, h4] at h
  obtain ⟨o', ho', hvalue, htake⟩ := Operand.select_eq_ok (v := v) hlen.1 hlen.2
  obtain rfl : o' = o := Except.ok.inj (ho'.symm.trans h)
  exact ⟨hvalue, htake⟩

namespace Function

variable {f g h : Function} {i n : InstrId} {news more : List InstrId} {v w : ValueId}

/-- Edits have put `news` right before `i`. -/
structure Laid (f : Function) (i : InstrId) (news : List InstrId) (g : Function) : Prop where
  grown : f.Grown i news g
  reached : g.Reached
  small : f.Small → g.Small
  apart : i ∉ news

theorem Laid.refl (hf : f.Reached) (i : InstrId) : f.Laid i [] f :=
  ⟨.refl f i, hf, id, by simp⟩

theorem Laid.trans (hg : f.Laid i news g) (hh : g.Laid i more h) : f.Laid i (news ++ more) h :=
  ⟨hg.grown.trans hh.grown hg.apart, hh.reached, fun hf => hh.small (hg.small hf),
    by simp [hg.apart, hh.apart]⟩

theorem Laid.grows (hg : f.Laid i news g) : f.Grows i g := ⟨news, hg.apart, hg.grown⟩

/-- `n` stands somewhere and computes `v` by `body`. -/
structure Computes (f : Function) (n : InstrId) (body : Body) (v : ValueId) (s : Shape) :
    Prop where
  home : ∃ b, f.home? n = some b
  body : f.body? n = some body
  dest : f.dest? n = some v
  source : f.source? v = some n
  shape : f.shape? v = some s

theorem Grows.body {body : Body} (hg : f.Grows i g) (hb : f.body? n = some body) :
    g.body? n = some body := by
  obtain ⟨_, -, hg⟩ := hg
  obtain ⟨x, hx, -⟩ := Option.map_eq_some_iff.mp hb
  rw [hg.body hx, hb]

theorem Grows.home (hg : f.Grows i g) {b : BlockId} (hb : f.home? n = some b) :
    g.home? n = some b := by
  obtain ⟨_, -, hg⟩ := hg
  obtain ⟨x, hx, -⟩ := home?_eq_some.mp hb
  rw [hg.home hx, hb]

theorem Grows.source (hg : f.Grows i g) (hv : f.source? v = some n) : g.source? v = some n := by
  obtain ⟨_, -, hg⟩ := hg
  exact hg.source v n hv

theorem Grows.unknown (hg : f.Grows i g) (hn : g.body? n = none) : f.body? n = none := by
  cases hb : f.body? n with
  | none => rfl
  | some body => simp [hg.body hb] at hn

theorem Computes.grows {body : Body} {s : Shape} (hc : f.Computes n body v s) (hg : f.Grows i g) :
    g.Computes n body v s := by
  obtain ⟨b, hb⟩ := hc.home
  refine ⟨⟨b, hg.home hb⟩, hg.body hc.body, ?_, hg.source hc.source, hg.shape hc.shape⟩
  obtain ⟨_, -, hg⟩ := hg
  obtain ⟨x, hx, -⟩ := home?_eq_some.mp hb
  rw [hg.destOld hx, hc.dest]

theorem Laid.mem_news (hg : f.Laid i news g) (hf : f.Linked) {b : BlockId}
    (hn : g.home? n = some b) (hb : f.body? n = none) : n ∈ news := by
  refine (hg.grown.home_cases hf.placed hg.reached.linked.placed hn).resolve_left fun hold => ?_
  obtain ⟨body, hbody⟩ := exists_body hold
  simp [hb] at hbody

theorem Laid.body_new (hg : f.Laid i news g) (hn : n ∈ news) : f.body? n = none := by
  simp [body?, (hg.grown.fresh n hn).1]

/-- One step through a move that was not there in `f`, from a lane to the one it selects. -/
def Copied (f g : Function) (p q : ValueId × Nat) : Prop :=
  ∃ n o, g.source? p.1 = some n ∧ (∃ b, g.home? n = some b) ∧ f.body? n = none ∧
    g.body? n = some (.alu ⟨.mov, [o]⟩) ∧ q.1 = o.value ∧ o.swizzle.toList[p.2]? = some q.2

/-- The lane `p` is the lane `q` seen through new moves. -/
def Traces (f g : Function) : ValueId × Nat → ValueId × Nat → Prop :=
  Relation.ReflTransGen (f.Copied g)

theorem Copied.grows {p q : ValueId × Nat} (hc : f.Copied g p q) (hg : g.Grows i h) :
    f.Copied h p q := by
  obtain ⟨n, o, hs, ⟨b, hb⟩, hnew, hbody, hrest⟩ := hc
  exact ⟨n, o, hg.source hs, ⟨b, hg.home hb⟩, hnew, hg.body hbody, hrest⟩

theorem Laid.traces {o : Operand} {s : Shape} {lanes : List Nat} {j k : Nat}
    (hg : f.Laid i [n] g) (hc : g.Computes n (.alu ⟨.mov, [o]⟩) w s)
    (hlanes : o.swizzle.toList.take lanes.length = lanes) (hk : lanes[j]? = some k) :
    f.Traces g (w, j) (o.value, k) := by
  refine .single ⟨n, o, hc.source, hc.home, hg.body_new (by simp), hc.body, rfl, ?_⟩
  have hj := (List.getElem?_eq_some_iff.mp hk).1
  rw [← hk, ← hlanes, List.getElem?_take_of_lt hj]

theorem Traces.grows {p q : ValueId × Nat} (hc : f.Traces g p q) (hg : g.Grows i h) :
    f.Traces h p q :=
  Relation.ReflTransGen.mono (fun _ _ hpq => hpq.grows hg) _ _ hc

theorem Traces.since {p q : ValueId × Nat} (hc : g.Traces h p q)
    (hg : ∀ n, g.body? n = none → f.body? n = none) : f.Traces h p q :=
  Relation.ReflTransGen.mono
    (fun _ _ ⟨n, o, hs, hb, hnew, hrest⟩ => ⟨n, o, hs, hb, hg n hnew, hrest⟩) _ _ hc

end Function

namespace Build

variable {f : Function} {i : InstrId} {body : Body} {v : ValueId}

/-- Instructions are laid right before `i`. -/
def laying (i : InstrId) : Conduct Builder.func where
  ready b := b.func.Reached ∧ b.func.Stands b.cursor i
  rel f news g := f.Laid i news g
  refl h := .refl h.1 i
  trans _ _ h h' := h.trans h'

/-- Whenever the build succeeds right before `i`, it leaves instructions there that are as `Q`
says. -/
abbrev Lays {α : Type} (m : Build α) (f : Function) (i : InstrId)
    (Q : α → List InstrId → Function → Prop) : Prop :=
  Obeys True (laying i) m f Q

theorem insert_of_run {c : Cursor} {dest : Option Shape} {n : InstrId} {b : Builder}
    (hrun : (insert body dest).run ⟨f, c⟩ = .ok (n, b)) :
    f.insert c body dest = .ok (n, b.func) ∧ b.cursor = .after n := by
  simp only [insert, StateT.run_bind, bind_eq_ok] at hrun
  obtain ⟨⟨b₀, b₁⟩, hget, ⟨⟨n', g⟩, b₂⟩, hlift, hrun⟩ := hrun
  cases hget
  cases hi : f.insert c body dest with
  | error e =>
    rw [hi] at hlift
    cases hlift
  | ok r =>
    rw [hi] at hlift
    cases hlift
    obtain ⟨_, hset, hrun⟩ := hrun
    cases hset
    cases hrun
    exact ⟨rfl, rfl⟩

theorem insert_lays (dest : Option Shape) (hlen : body.srcs.length ≤ 256) :
    (insert body dest).Lays f i fun n news g => news = [n] ∧ f.GoesIn i n body dest g := by
  rintro ⟨f, c⟩ rfl ⟨hf, hs⟩
  refine .of_forall ?_
  rintro ⟨n, b⟩ hrun
  obtain ⟨hi, hcursor⟩ := insert_of_run hrun
  obtain ⟨hg, hj⟩ := hs.goesIn hf hi
  have hsmall : f.Small → b.func.Small := fun hs => by
    refine hs.apply (e := .insert c body dest) hlen ?_
    simp only [Edit.apply, hi]
    rfl
  exact ⟨⟨hg, by rw [hcursor]; exact hj.stands⟩, [n],
    ⟨hj.grown, hg, hsmall, hj.grown.not_mem hs hf.linked.placed⟩, rfl, hj⟩

theorem insertValue_lays (shape : Shape) (hlen : body.srcs.length ≤ 256) :
    (insertValue body shape).Lays f i fun v news g =>
      ∃ n, news = [n] ∧ f.hasValue v = false ∧ g.Computes n body v shape := by
  refine .insertValue (insert_lays (some shape) hlen) ?_
  rintro n v _ g hg ⟨rfl, hj⟩ hdest
  obtain rfl : v = ⟨f.values.size⟩ := by simpa [hj.dest] using hdest.symm
  refine ⟨n, rfl, by simp [Function.hasValue, Arena.get?_size], (hj.grown.fresh n (by simp)).2,
    hj.body, hdest, (hg.reached.linked.defined.iff n _).mp hdest, hj.shape⟩

theorem aluSwizzled_lays (op : AluOp) (srcs : List Operand) (width : Nat)
    (hlen : srcs.length ≤ 256) :
    (aluSwizzled op srcs width).Lays f i fun v news g => ∃ n bits, news = [n] ∧
      f.hasValue v = false ∧ g.Computes n (.alu ⟨op, srcs⟩) v ⟨width, bits⟩ := by
  refine .aluSwizzled fun bits => (insertValue_lays _ (by simpa [Body.srcs] using hlen)).imp ?_
  rintro v news g - ⟨n, hn, hv, hc⟩
  exact ⟨n, bits, hn, hv, hc⟩

theorem mov_lays (o : Operand) (width : Nat) :
    (mov o width).Lays f i fun v news g => ∃ n bits, news = [n] ∧ f.hasValue v = false ∧
      g.Computes n (.alu ⟨.mov, [o]⟩) v ⟨width, bits⟩ :=
  aluSwizzled_lays .mov [o] width (by simp)

theorem vec_lays {l : List ValueId} (hl : l.length ≠ 1) :
    (vec l).Lays f i fun v news g => ∃ n op bits, news = [n] ∧ f.hasValue v = false ∧
      AluOp.construct? l.length = some op ∧
      g.Computes n (.alu ⟨op, l.map (.channel · 0)⟩) v ⟨l.length, bits⟩ := by
  unfold vec
  split
  · simp at hl
  · refine .checked fun op hop => ?_
    have hop := Checked.orElse_eq_ok.mp hop
    have hlen : l.length ≤ 4 := by
      rcases AluOp.construct?_cases hop with ⟨h, -⟩ | ⟨h, -⟩ | ⟨h, -⟩ <;> omega
    refine (aluSwizzled_lays op _ l.length (by simpa using by omega)).imp ?_
    rintro v news g - ⟨n, bits, hn, hv, hc⟩
    exact ⟨n, op, bits, hn, hv, hop, hc⟩

/-- Nothing but moves. -/
def OnlyMoves (g : Function) (news : List InstrId) : Prop :=
  ∀ n ∈ news, ∃ o, g.body? n = some (.alu ⟨.mov, [o]⟩)

theorem channel_lays (v : ValueId) (k : Nat) :
    (channel v k).Lays f i fun w news g => OnlyMoves g news ∧ f.Traces g (w, 0) (v, k) ∧
      ∃ bits, g.shape? w = some ⟨1, bits⟩ := by
  refine .shape fun s hs => ?_
  split
  · rename_i hall
    have hwidth : s.width = 1 := by simpa using (congrArg List.length hall).symm
    obtain rfl : k = 0 := by simpa [hwidth] using hall
    exact .pure ⟨by simp [OnlyMoves], .refl, s.bits, by rw [hs, ← hwidth]⟩
  · refine .checked fun o ho => ?_
    obtain ⟨rfl, htake⟩ := Operand.select_ok ho
    refine (mov_lays o _).imp ?_
    rintro w _ g hg ⟨n, bits, rfl, -, hc⟩
    exact ⟨by simp [OnlyMoves, hc.body], hg.traces hc htake rfl, bits, hc.shape⟩

theorem materialize_lays (v : ValueId) (n : Nat) :
    (materialize (.whole v) n).Lays f i fun w news g => OnlyMoves g news ∧
      ∀ k < n, f.Traces g (w, k) (v, k) := by
  refine .shape fun s hs => ?_
  simp only []
  split
  · exact .pure ⟨by simp [OnlyMoves], fun k _ => .refl⟩
  · refine .checked fun l hl => .checked fun o ho => ?_
    obtain ⟨hn, rfl⟩ := Swizzle.lanes_eq_ok.mp hl
    obtain ⟨hvalue, htake⟩ := Operand.select_ok ho
    refine (mov_lays o n).imp ?_
    rintro w _ g hg ⟨m, bits, rfl, -, hc⟩
    refine ⟨by simp [OnlyMoves, hc.body], fun k hk => ?_⟩
    have hkth : ((Operand.whole v).swizzle.toList.take n)[k]? = some k := by
      rw [List.getElem?_take_of_lt hk]
      have hk4 : k < 4 := by omega
      interval_cases k <;> rfl
    obtain rfl : o.value = v := hvalue
    exact hg.traces hc htake hkth

end Build

end ShaderSSA
