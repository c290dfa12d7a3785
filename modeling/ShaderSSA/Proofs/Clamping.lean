import ShaderSSA.Proofs.Operations
import ShaderSSA.Proofs.Visiting

/-! Limits beyond four lanes. A value has four lanes at most, but a limit of more is not clamped: a
pair that the limit lets through is joined before its width is looked at again. So the walk goes as
with a limit of four until it tries such a pair, and there it breaks off. -/

namespace ShaderSSA

section Folds

variable {σ α ε : Type} {step step' : σ → α → Except ε σ} {l : List α} {s : σ}

/-- Two loops whose steps agree wherever the first comes to agree. -/
theorem foldlM_agrees (h : ∀ done a rest t, l = done ++ a :: rest → done.foldlM step s = .ok t →
    step' t a = step t a) : l.foldlM step' s = l.foldlM step s := by
  induction l generalizing s with
  | nil => rfl
  | cons a l ih =>
    rw [List.foldlM_cons, List.foldlM_cons, h [] a l s rfl rfl]
    cases hs : step s a with
    | error e => rfl
    | ok t =>
      refine ih fun done b rest u hl hu => h (a :: done) b rest u (by rw [hl]; rfl) ?_
      rw [List.foldlM_cons, hs, ok_bind, hu]

/-- A loop whose steps agree or fail fails if one of them does. -/
theorem foldlM_fails {E : ε → Prop} {done rest : List α} {a : α} {t : σ}
    (h : ∀ done a rest t, l = done ++ a :: rest → done.foldlM step s = .ok t →
      step' t a = step t a ∨ ∃ e, E e ∧ step' t a = .error e)
    (hl : l = done ++ a :: rest) (ht : done.foldlM step s = .ok t)
    (hfails : ∃ e, E e ∧ step' t a = .error e) : ∃ e, E e ∧ l.foldlM step' s = .error e := by
  induction done generalizing l s with
  | nil =>
    cases ht
    obtain ⟨e, he, ha⟩ := hfails
    exact ⟨e, he, by rw [hl, List.nil_append, List.foldlM_cons, ha]; rfl⟩
  | cons b done ih =>
    subst hl
    rw [List.foldlM_cons, bind_eq_ok] at ht
    obtain ⟨u, hu, ht⟩ := ht
    rw [List.cons_append, List.foldlM_cons]
    rcases h [] b (done ++ a :: rest) s rfl rfl with hagree | ⟨e, he, hb⟩
    · rw [hagree, hu, ok_bind]
      refine ih (fun done' a' rest' t' hl' ht' => ?_) rfl ht
      refine h (b :: done') a' rest' t' (by rw [List.cons_append, hl']; rfl) ?_
      rw [List.foldlM_cons, hu, ok_bind, ht']
    · exact ⟨e, he, by rw [hb]; rfl⟩

end Folds

theorem Checked.eq_overflow_of_fit {bits n : Nat} {e : Fault} (h : fit bits n = .error e) :
    e = .overflow := by
  unfold fit at h
  split at h <;> cases h
  rfl

theorem MergeStats.eq_overflow_of_merge {s t : MergeStats} {e : Fault}
    (h : s.merge t = .error e) : e = .overflow := by
  simp only [merge, bind_eq_error] at h
  rcases h with h | ⟨_, -, h | ⟨_, -, h | ⟨_, -, h | ⟨_, -, h⟩⟩⟩⟩
  · exact Checked.eq_overflow_of_fit h
  · exact Checked.eq_overflow_of_fit h
  · exact Checked.eq_overflow_of_fit h
  · exact Checked.eq_overflow_of_fit h
  · cases h

theorem AluOp.arity_pos (op : AluOp) : 0 < op.arity := by
  cases op <;> decide

/-- More lanes were to be selected than a value has, though no more than `limit`. -/
def Fault.IsLaneCount (limit : Nat) (e : Fault) : Prop :=
  ∃ n, 4 < n ∧ n ≤ limit ∧ n ≤ 8 ∧ e = .breach (.laneCount n)

theorem Operand.select_eq_error {v : ValueId} {lanes : List Nat} (h : 4 < lanes.length) :
    Operand.select v lanes = .error (.breach (.laneCount lanes.length)) := by
  cases hl : lanes.getLast? with
  | none =>
    have : lanes = [] := List.getLast?_eq_none_iff.mp hl
    simp [this] at h
  | some last =>
    simp only [Operand.select, hl, if_neg (Nat.not_le.mpr h)]
    rfl

namespace Function

variable {f : Function} {a b i : InstrId} {key : ClassKey} {limit : Nat}

theorem joinOperands_eq_error {widthA widthB : Nat} {x y : Operand} (hv : x.value = y.value)
    (hA : widthA ≤ 4) (hB : widthB ≤ 4) (h4 : 4 < widthA + widthB) :
    joinOperands a b widthA widthB x y = .error (.breach (.laneCount (widthA + widthB))) := by
  have hx : x.swizzle.lanes widthA = .ok (x.swizzle.toList.take widthA) :=
    Swizzle.lanes_eq_ok.mpr ⟨hA, rfl⟩
  have hy : y.swizzle.lanes widthB = .ok (y.swizzle.toList.take widthB) :=
    Swizzle.lanes_eq_ok.mpr ⟨hB, rfl⟩
  have hlen : (x.swizzle.toList.take widthA ++ y.swizzle.toList.take widthB).length =
      widthA + widthB := by
    simp
    omega
  simp only [joinOperands, hv, beq_self_eq_true, Checked.require, if_true, ok_bind, hx, hy]
  rw [Operand.select_eq_error (by omega), hlen]

/-- The limit decides whether two instructions are merged and about nothing else. -/
theorem merge?_eq (ha : f.InClass a key) (hb : f.InClass b key) (limit : Nat) :
    f.merge? a b limit = if limit < f.width a + f.width b then .ok none
      else f.merge? a b (f.width a + f.width b) := by
  obtain ⟨srcsA, va, widthA, hma⟩ := ha
  obtain ⟨srcsB, vb, widthB, hmb⟩ := hb
  rw [hma.width_eq, hmb.width_eq]
  obtain ⟨xA, hxA, hsA⟩ := hma.value
  obtain ⟨xB, hxB, hsB⟩ := hmb.value
  simp only [merge?, hma.aluParts, hmb.aluParts, ok_bind, hxA, hxB, hsA, hsB, beq_self_eq_true,
    Checked.require, if_true, Nat.lt_irrefl, if_false]
  split <;> rfl

theorem merge?_refuses (ha : f.InClass a key) (hb : f.InClass b key)
    (h : limit < f.width a + f.width b) : f.merge? a b limit = .ok none :=
  (merge?_eq ha hb limit).trans (if_pos h)

theorem merge?_admits (ha : f.InClass a key) (hb : f.InClass b key)
    (h : f.width a + f.width b ≤ limit) :
    f.merge? a b limit = f.merge? a b (f.width a + f.width b) :=
  (merge?_eq ha hb limit).trans (if_neg (Nat.not_lt.mpr h))

/-- The first operands that are joined are too many lanes already. -/
theorem merge?_overreaches (hf : f.Defined) (hv : f.Verified) (ha : f.InClass a key)
    (hb : f.InClass b key) (h4 : 4 < f.width a + f.width b) (hle : f.width a + f.width b ≤ limit) :
    ∃ e, e.IsLaneCount limit ∧ f.merge? a b limit = .error e := by
  obtain ⟨srcsA, va, widthA, hma⟩ := ha
  obtain ⟨srcsB, vb, widthB, hmb⟩ := hb
  rw [hma.width_eq, hmb.width_eq] at h4 hle
  obtain ⟨xA, hxA, hsA⟩ := hma.value
  obtain ⟨xB, hxB, hsB⟩ := hmb.value
  have hA : widthA ≤ 4 := (hf.width va _ hma.shape).2
  have hB : widthB ≤ 4 := (hf.width vb _ hmb.shape).2
  have hlen : srcsA.length = key.op.arity := (hma.fits hv).1
  have hvalues : srcsA.map (·.value) = srcsB.map (·.value) := hma.values.trans hmb.values.symm
  refine ⟨_, ⟨widthA + widthB, h4, hle, by omega, rfl⟩, ?_⟩
  simp only [merge?, hma.aluParts, hmb.aluParts, ok_bind, hxA, hxB, hsA, hsB, beq_self_eq_true,
    Checked.require, if_true, if_neg (Nat.not_lt.mpr hle)]
  cases srcsA with
  | nil => exact absurd key.op.arity_pos (by simp [← hlen])
  | cons x xs =>
    cases srcsB with
    | nil => simp at hvalues
    | cons y ys =>
      have hxy : x.value = y.value := (List.cons.inj hvalues).1
      simp only [List.zip_cons_cons, List.mapM_cons, joinOperands_eq_error hxy hA hB h4]
      rfl

end Function

namespace Walk

variable {f : Function} {limit : Nat} {b : BlockId} {i : InstrId} {w : Walk}

/-- The entries that `i` is tried with in vain before it fits one into four lanes. -/
def refusals (g : Function) (i : InstrId) (stack : List Entry) : List Entry :=
  stack.takeWhile fun e => 4 < g.width e.instr + g.width i

theorem wide_of_mem_refusals {g : Function} {stack : List Entry} {e : Entry}
    (h : e ∈ refusals g i stack) : 4 < g.width e.instr + g.width i := by
  rw [refusals] at h
  simpa using List.mem_takeWhile_imp h

theorem mergeInto_overreaches {g : Function} {stack : List Entry} {key : ClassKey} (hg : g.Defined)
    (hv : g.Verified) (hi : g.InClass i key) (hstack : ∀ e ∈ stack, g.InClass e.instr key)
    (h : ∃ e ∈ refusals g i stack, g.width e.instr + g.width i ≤ limit) :
    ∃ e, e.IsLaneCount limit ∧ mergeInto g i limit stack = .error e := by
  induction stack with
  | nil => simp [refusals] at h
  | cons x below ih =>
    obtain ⟨hx, hbelow⟩ := List.forall_mem_cons.mp hstack
    by_cases h4 : 4 < g.width x.instr + g.width i
    · by_cases hle : g.width x.instr + g.width i ≤ limit
      · obtain ⟨e, he, hrun⟩ := Function.merge?_overreaches hg hv hx hi h4 hle
        exact ⟨e, he, by simp only [mergeInto, hrun]; rfl⟩
      · obtain ⟨e, he, hrun⟩ := ih hbelow (by simpa [refusals, h4, hle] using h)
        have hnone := Function.merge?_refuses hx hi (Nat.not_le.mp hle)
        exact ⟨e, he, by simp only [mergeInto, hnone, ok_bind, hrun]; rfl⟩
    · simp [refusals, h4] at h

theorem mergeInto_agrees {g : Function} {stack : List Entry} {key : ClassKey} (hg : g.Tidy)
    (hv : g.Verified) (hlimit : 4 ≤ limit) (hi : g.InClass i key)
    (hstack : ∀ e ∈ stack, g.InClass e.instr key ∧ e.instr ≠ i)
    (h : ∀ e ∈ refusals g i stack, limit < g.width e.instr + g.width i) :
    mergeInto g i limit stack = mergeInto g i 4 stack := by
  induction stack with
  | nil => rfl
  | cons x below ih =>
    obtain ⟨⟨hx, hne⟩, hbelow⟩ := List.forall_mem_cons.mp hstack
    by_cases h4 : 4 < g.width x.instr + g.width i
    · obtain ⟨hwide, hrest⟩ : limit < g.width x.instr + g.width i ∧
          ∀ e ∈ refusals g i below, limit < g.width e.instr + g.width i := by
        simpa [refusals, h4] using h
      simp only [mergeInto, Function.merge?_refuses hx hi hwide, Function.merge?_refuses hx hi h4,
        ok_bind, ih hbelow hrest]
    · have h4 := Nat.not_lt.mp h4
      have hagree := (Function.merge?_admits hx hi (h4.trans hlimit)).trans
        (Function.merge?_admits hx hi h4).symm
      -- a pair that fits is merged, so what is below it is not tried
      rcases Function.merge_ok hg hv hx hi hne le_rfl with
        ⟨-, hwide⟩ | ⟨_, _, _, _, _, _, _, _, _, _, _, _, hsome, -⟩
      · exact absurd h4 (Nat.not_le.mpr hwide)
      · simp only [mergeInto, hagree, hsome, ok_bind]

/-- Among the entries that `i` is tried with is one that fits into `limit` lanes though not into
four. -/
def Overreaches (limit : Nat) (w : Walk) (i : InstrId) : Prop :=
  ∃ key, w.func.classOf i = .ok (some key) ∧
    ∃ e ∈ refusals w.func i (w.stackOf key), w.func.width e.instr + w.func.width i ≤ limit

section Steps

variable {anc : List BlockId} {done rest : List InstrId} {h : Scoped f anc done [] w}

theorem Scoped.At.home (ha : h.At b i rest) : w.func.home? i = some b :=
  h.tidy.linked.placed.mem_iff.mp (by simp [ha.block])

theorem Scoped.At.candidates (ha : h.At b i rest) {key : ClassKey} :
    ∀ e ∈ w.stackOf key, w.func.InClass e.instr key ∧ e.instr ≠ i := by
  intro e he
  have hget := h.get?_of_mem he
  refine ⟨(h.linked hget).1, fun hei => ?_⟩
  simp [hei, ha.unstacked] at hget

theorem Scoped.At.overreaches (ha : h.At b i rest) (hover : w.Overreaches limit i) :
    ∃ e, e.IsLaneCount limit ∧ addLive limit w i = .error e := by
  obtain ⟨key, hkey, hover⟩ := hover
  have hdef := h.tidy.linked.defined
  obtain ⟨e, he, hrun⟩ := mergeInto_overreaches hdef h.verified
    (Function.inClass_of_classOf hdef ha.home hkey) (fun e he => (ha.candidates e he).1) hover
  refine ⟨e, he, ?_⟩
  rw [addLive_eq ha.home]
  simp only [Walk.add, hkey, ok_bind, hrun]
  rfl

theorem Scoped.At.agrees (ha : h.At b i rest) (hlimit : 4 ≤ limit)
    (hover : ¬ w.Overreaches limit i) : addLive limit w i = addLive 4 w i := by
  have hdef := h.tidy.linked.defined
  obtain ⟨o, hclass, -⟩ := Function.classOf_ok hdef ha.home
  rw [addLive_eq ha.home, addLive_eq ha.home]
  cases o with
  | none => simp only [Walk.add, hclass, ok_bind]
  | some key =>
    have hrefused : ∀ e ∈ refusals w.func i (w.stackOf key),
        limit < w.func.width e.instr + w.func.width i :=
      fun e he => Nat.not_le.mp fun hle => hover ⟨key, hclass, e, he, hle⟩
    have hin := Function.inClass_of_classOf hdef ha.home hclass
    simp only [Walk.add, hclass, ok_bind,
      mergeInto_agrees h.tidy h.verified hlimit hin ha.candidates hrefused]

end Steps

/-- A step from where the walk at a limit of four has come to goes as at four or breaks off. -/
theorem Comes.follows (h : Comes f 4 b i w) (hf : f.Tidy) (hv : f.Verified)
    (hlimit : 4 ≤ limit) : addLive limit w i = addLive 4 w i ∨
      ∃ e, e.IsLaneCount limit ∧ addLive limit w i = .error e := by
  obtain ⟨anc, done, rest, hs, hat⟩ := h.scoped hf hv le_rfl
  by_cases hover : w.Overreaches limit i
  · exact .inr (hat.overreaches hover)
  · exact .inl (hat.agrees hlimit hover)

theorem visit_follows (hf : f.Tidy) (hv : f.Verified) (hlimit : 4 ≤ limit)
    {before after : List DominatorTree.Visit} {v : DominatorTree.Visit}
    (htour : f.requireDominance.1.tour = before ++ v :: after)
    (hrun : before.foldlM (visit 4) (.start f.requireDominance.2) = .ok w) :
    w.visit limit v = w.visit 4 v ∨ ∃ e, e.IsLaneCount limit ∧ w.visit limit v = .error e := by
  cases v with
  | leave b => exact .inl rfl
  | enter b =>
    have hfollows : ∀ done i rest w', w.func.blockInstrs b = done ++ i :: rest →
        done.foldlM (addLive 4) w = .ok w' → addLive limit w' i = addLive 4 w' i ∨
          ∃ e, e.IsLaneCount limit ∧ addLive limit w' i = .error e :=
      fun done i rest w' hblock hdone =>
        Comes.follows ⟨before, after, done, rest, w, htour, hrun, hblock, hdone⟩ hf hv hlimit
    by_cases hagrees : ∀ done i rest w', w.func.blockInstrs b = done ++ i :: rest →
        done.foldlM (addLive 4) w = .ok w' → addLive limit w' i = addLive 4 w' i
    · exact .inl (foldlM_agrees hagrees)
    · push Not at hagrees
      obtain ⟨done, i, rest, w', hblock, hdone, hne⟩ := hagrees
      have hfails := (hfollows done i rest w' hblock hdone).resolve_left hne
      exact .inr (foldlM_fails hfollows hblock hdone hfails)

end Walk

namespace Function

variable {f : Function} {limit : Nat}

/-- The walk at a limit of four tries a pair that fits into `limit` lanes though not into four. -/
def Overreaches (f : Function) (limit : Nat) : Prop :=
  ∃ b i w, Walk.Comes f 4 b i w ∧ w.Overreaches limit i

theorem mergeWalk_overreaches (hf : f.Tidy) (hv : f.Verified) (hlimit : 4 ≤ limit)
    (hover : f.Overreaches limit) :
    ∃ e, e.IsLaneCount limit ∧ f.mergeWalk limit = .error e := by
  obtain ⟨b, i, w, hcomes, hover⟩ := hover
  obtain ⟨_, _, _, hs, hat⟩ := hcomes.scoped hf hv le_rfl
  obtain ⟨before, after, done, rest, w₀, htour, hrun, hblock, hdone⟩ := hcomes
  have henter : ∃ e, e.IsLaneCount limit ∧ w₀.visit limit (.enter b) = .error e := by
    refine foldlM_fails (fun done i rest w hblock hdone => ?_) hblock hdone (hat.overreaches hover)
    exact Walk.Comes.follows ⟨before, after, done, rest, w₀, htour, hrun, hblock, hdone⟩ hf hv
      hlimit
  obtain ⟨e, he, hfails⟩ := foldlM_fails
    (fun before v after w htour hrun => Walk.visit_follows hf hv hlimit htour hrun) htour hrun
    henter
  exact ⟨e, he, by simp only [mergeWalk, hfails]; rfl⟩

theorem mergeWalk_agrees (hf : f.Tidy) (hv : f.Verified) (hlimit : 4 ≤ limit)
    (hover : ¬ f.Overreaches limit) : f.mergeWalk limit = f.mergeWalk 4 := by
  have hagrees :
      f.requireDominance.1.tour.foldlM (Walk.visit limit) (.start f.requireDominance.2) =
      f.requireDominance.1.tour.foldlM (Walk.visit 4) (.start f.requireDominance.2) := by
    refine foldlM_agrees fun before v after w htour hrun => ?_
    cases v with
    | leave b => rfl
    | enter b =>
      refine foldlM_agrees fun done i rest w' hblock hdone => ?_
      have hcomes : Walk.Comes f 4 b i w' :=
        ⟨before, after, done, rest, w, htour, hrun, hblock, hdone⟩
      obtain ⟨_, _, _, hs, hat⟩ := hcomes.scoped hf hv le_rfl
      exact hat.agrees hlimit fun hover' => hover ⟨b, i, w', hcomes, hover'⟩
  simp only [mergeWalk, hagrees]

theorem exists_mergesAll (hf : f.Tidy) (hv : f.Verified) (hlimit : limit ≤ 4) :
    ∃ changed counts g, f.MergesAll limit changed counts g := by
  obtain ⟨hf', seen, htours, -⟩ := hf.tours
  have hv' := (SameCode.requireDominance f).verified hv
  obtain ⟨w, hrun, hw⟩ := (Walk.Scoped.start hf' hv').visits hlimit htours
  exact ⟨_, _, _, mergesAll_of_tour hrun hw.eq_nil⟩

theorem mergeAll_of_error {e : Fault} (h : f.mergeWalk limit = .error e) (totals : MergeStats) :
    f.mergeAll limit totals = .error e := by
  simp only [mergeAll, h]
  rfl

/-- Merging never fails at a limit of four or less, unless totals overflow. Beyond, it does the same
as at four as long as it tries no pair that fits into the limit but not into four lanes, and else it
fails for the number of lanes. -/
theorem mergeAll_beyond_four (hf : f.Attained) (hcheck : f.check = .ok (.ok ())) (limit : Nat) :
    (∃ changed counts g, f.MergesAll (min limit 4) changed counts g) ∧
    (∀ totals, f.mergeAll limit totals = f.mergeAll (min limit 4) totals ↔
      ¬ f.Overreaches limit) ∧
    (f.Overreaches limit → ∃ n, 4 < n ∧ n ≤ limit ∧ n ≤ 8 ∧
      ∀ totals, f.mergeAll limit totals = .error (.breach (.laneCount n))) := by
  have hv := verified_of_check hf.reached.linked hcheck
  have htidy : f.Tidy := ⟨hf.reached, hv.small hf.reached.linked⟩
  obtain ⟨changed, counts, g, hg⟩ := exists_mergesAll htidy hv (Nat.min_le_right limit 4)
  refine ⟨⟨changed, counts, g, hg⟩, ?_⟩
  rcases Nat.le_total limit 4 with hle | hlimit
  · have hnever : ¬ f.Overreaches limit := by
      rintro ⟨b, i, w, -, key, -, e, he, hfits⟩
      have h4 := Walk.wide_of_mem_refusals he
      omega
    rw [Nat.min_eq_left hle]
    exact ⟨by simp [hnever], fun h => absurd h hnever⟩
  · rw [Nat.min_eq_right hlimit] at hg ⊢
    refine ⟨fun totals => ⟨fun hsame hover => ?_, fun hnot => ?_⟩, fun hover => ?_⟩
    · obtain ⟨e, ⟨n, -, -, -, rfl⟩, hfails⟩ := mergeWalk_overreaches htidy hv hlimit hover
      rw [mergeAll_of_error hfails, hg.totals] at hsame
      cases hmerge : totals.merge counts with
      | ok total => simp [hmerge, Except.map] at hsame
      | error e =>
        obtain rfl := MergeStats.eq_overflow_of_merge hmerge
        simp [hmerge, Except.map] at hsame
    · simp only [mergeAll, mergeWalk_agrees htidy hv hlimit hnot]
    · obtain ⟨e, ⟨n, h4, hn, h8, rfl⟩, hfails⟩ := mergeWalk_overreaches htidy hv hlimit hover
      exact ⟨n, h4, hn, h8, mergeAll_of_error hfails⟩

/-- Sums of the given widths over one value. -/
def sumsOf (widths : List Nat) : List Operation :=
  .edit (.insert (.stop ⟨0⟩) (.const [1, 2, 3, 4]) (some ⟨4, 32⟩)) :: widths.map fun width =>
    .edit (.insert (.stop ⟨0⟩) (.alu ⟨.fadd, [.whole ⟨0⟩, .whole ⟨0⟩]⟩) (some ⟨width, 32⟩))

/-- Two sums of three lanes are refused at a limit of five as at four, and one of them takes a sum
of one lane. At six the two are tried. -/
theorem mergeAll_beyond_four_sumsOf :
    (Operation.outcome (sumsOf [3, 3, 1])).Attained ∧
    (Operation.outcome (sumsOf [3, 3, 1])).check = .ok (.ok ()) ∧
    ¬ (Operation.outcome (sumsOf [3, 3, 1])).Overreaches 5 ∧
    (Operation.outcome (sumsOf [3, 3, 1])).mergeAll 5 .zero =
      (Operation.outcome (sumsOf [3, 3, 1])).mergeAll 4 .zero ∧
    (∃ r, (Operation.outcome (sumsOf [3, 3, 1])).mergeAll 5 .zero = .ok r ∧ r.1 = true ∧
      r.2.1.tooWide = 1) ∧
    (Operation.outcome (sumsOf [3, 3, 1])).Overreaches 6 := by
  have hf := Attained.outcome (sumsOf [3, 3, 1])
  have hcheck : (Operation.outcome (sumsOf [3, 3, 1])).check = .ok (.ok ()) := rfl
  have hfive : ((Operation.outcome (sumsOf [3, 3, 1])).mergeAll 5 .zero).toOption.map
      (fun r => (r.1, r.2.1.tooWide)) = some (true, 1) := by decide +kernel
  have hsix : ((Operation.outcome (sumsOf [3, 3, 1])).mergeAll 6 .zero).toOption.isNone := by
    decide +kernel
  have hfour : ((Operation.outcome (sumsOf [3, 3, 1])).mergeAll 4 .zero).toOption.isSome := by
    decide +kernel
  obtain ⟨r, hr, hcounts⟩ := Option.map_eq_some_iff.mp hfive
  have hrun := toOption_eq_some.mp hr
  have hnever : ¬ (Operation.outcome (sumsOf [3, 3, 1])).Overreaches 5 := by
    intro hover
    obtain ⟨n, -, -, -, hfails⟩ := (mergeAll_beyond_four hf hcheck 5).2.2 hover
    rw [hfails] at hrun
    cases hrun
  have hover : (Operation.outcome (sumsOf [3, 3, 1])).Overreaches 6 := by
    refine not_not.mp fun hnot => ?_
    have hsame := ((mergeAll_beyond_four hf hcheck 6).2.1 .zero).mpr hnot
    rw [show min 6 4 = 4 from rfl] at hsame
    rw [hsame] at hsix
    simp_all
  exact ⟨hf, hcheck, hnever, ((mergeAll_beyond_four hf hcheck 5).2.1 .zero).mpr hnever,
    ⟨r, hrun, (Prod.mk.inj hcounts).1, (Prod.mk.inj hcounts).2⟩, hover⟩

/-- Sums of three and of two lanes pass a limit of eight. -/
theorem sumsOf_fail_at_eight :
    (Operation.outcome (sumsOf [3, 2])).Attained ∧
    (Operation.outcome (sumsOf [3, 2])).check = .ok (.ok ()) ∧
    (∃ r, (Operation.outcome (sumsOf [3, 2])).mergeAll (min 8 4) .zero = .ok r ∧ r.1 = false) ∧
    (Operation.outcome (sumsOf [3, 2])).mergeAll 8 .zero = .error (.breach (.laneCount 5)) :=
  ⟨Attained.outcome (sumsOf [3, 2]), rfl, ⟨_, rfl, rfl⟩, rfl⟩

end Function

end ShaderSSA
