import ShaderSSA.Proofs.Scoping
import ShaderSSA.Proofs.Tours

/-! The whole walk. What is left of a block when it has been visited is open for the blocks below
it and comes off the stacks when they have been left, so that at the end the stacks are empty. -/

namespace ShaderSSA

namespace Walk

variable {f : Function} {limit : Nat} {anc anc' seen seen' : List BlockId}
  {done rest more : List InstrId} {w : Walk} {b : BlockId} {i j : InstrId}

/-- Adds an instruction unless a merge has taken it out. -/
def addLive (limit : Nat) (w : Walk) (i : InstrId) : Checked Walk := do
  if (← w.func.instr i).removed then return w
  w.add limit i

theorem enter_eq : w.enter limit b = (w.func.blockInstrs b).foldlM (addLive limit) w := rfl

theorem addLive_eq (hi : w.func.home? i = some b) : addLive limit w i = w.add limit i := by
  obtain ⟨y, hy, hremoved, -⟩ := Function.home?_eq_some.mp hi
  have hinstr : w.func.instr i = .ok y := Function.instr_eq_ok.mpr hy
  simp only [addLive, hinstr, ok_bind, hremoved, Bool.false_eq_true, if_false]

/-- What each addition keeps, a run of additions keeps. -/
theorem adds_ok {P : List InstrId → Walk → Prop} (hplaced : ∀ {done w}, P done w → w.func.Placed)
    (hadd : ∀ {done w i rest}, P done w → w.func.blockInstrs b = done ++ i :: rest →
      ∃ w' done', w.add limit i = .ok w' ∧ w'.func.blockInstrs b = done' ++ rest ∧ P done' w')
    (h : P done w) (hb : w.func.blockInstrs b = done ++ (more ++ rest)) :
    ∃ w' done', more.foldlM (addLive limit) w = .ok w' ∧
      w'.func.blockInstrs b = done' ++ rest ∧ P done' w' := by
  -- a merge changes what is done of the block and never what is left, so `done` goes along
  induction more generalizing w done with
  | nil => exact ⟨w, done, rfl, hb, h⟩
  | cons i more ih =>
    obtain ⟨w₁, done₁, hrun, hb₁, h₁⟩ := hadd h hb
    obtain ⟨w₂, done₂, hruns, hb₂, h₂⟩ := ih h₁ hb₁
    have hi : w.func.home? i = some b := (hplaced h).mem_iff.mp (by simp [hb])
    refine ⟨w₂, done₂, ?_, hb₂, h₂⟩
    simp only [List.foldlM_cons, addLive_eq hi, hrun, ok_bind, hruns]

/-- What entering and leaving keep, a tour keeps. -/
theorem visits_ok {P : List BlockId → List BlockId → Walk → Prop}
    {visits : List DominatorTree.Visit} {blocks : Blocks}
    (henter : ∀ {anc seen b w}, P anc seen w → blocks.Reachable b →
      (∀ p, p ∈ anc ↔ blocks.StrictlyDominates p b) → (∀ c ∈ seen, ¬ blocks.Dominates b c) →
      ∃ w', w.enter limit b = .ok w' ∧ P (b :: anc) (b :: seen) w')
    (hleave : ∀ {anc seen b w}, P (b :: anc) seen w → b ∉ anc →
      ∃ w', w.leave b = .ok w' ∧ P anc seen w')
    (ht : blocks.Tours anc seen visits anc' seen') (h : P anc seen w) :
    ∃ w', visits.foldlM (Walk.visit limit) w = .ok w' ∧ P anc' seen' w' := by
  induction ht generalizing w with
  | nil => exact ⟨w, rfl, h⟩
  | enter hr habove hbelow _ ih =>
    obtain ⟨w₁, hrun, h₁⟩ := henter h hr habove hbelow
    obtain ⟨w₂, hruns, h₂⟩ := ih h₁
    exact ⟨w₂, by simp only [List.foldlM_cons, Walk.visit, hrun, ok_bind, hruns], h₂⟩
  | leave hb _ ih =>
    obtain ⟨w₁, hrun, h₁⟩ := hleave h hb
    obtain ⟨w₂, hruns, h₂⟩ := ih h₁
    exact ⟨w₂, by simp only [List.foldlM_cons, Walk.visit, hrun, ok_bind, hruns], h₂⟩

theorem passed_open {g : Function} (hg : g.Placed) {S : List BlockId} :
    g.Passed (· ∈ b :: S) [] j ↔ g.Passed (· ∈ S) (g.blockInstrs b) j := by
  simp only [Function.Passed, List.not_mem_nil, false_or, hg.mem_iff, List.mem_cons]
  constructor
  · rintro ⟨c, rfl | hc, hj⟩
    · exact .inl hj
    · exact .inr ⟨c, hc, hj⟩
  · rintro (hj | ⟨c, hc, hj⟩)
    · exact ⟨b, .inl rfl, hj⟩
    · exact ⟨c, .inr hc, hj⟩

theorem Scoped.open (h : Scoped f anc (w.func.blockInstrs b) [] w) :
    Scoped f (b :: anc) [] [] w :=
  ⟨h.tidy, h.verified, h.flow, h.paired, h.classed,
    fun j k hj => (passed_open h.tidy.linked.placed).mpr (h.standing j k hj), h.linear⟩

theorem Scoped.adds (h : Scoped f anc done [] w) (hlimit : limit ≤ 4) (hr : f.blocks.Reachable b)
    (habove : ∀ p, p ∈ anc ↔ f.blocks.StrictlyDominates p b)
    (hb : w.func.blockInstrs b = done ++ (more ++ rest)) :
    ∃ w' done', more.foldlM (addLive limit) w = .ok w' ∧
      w'.func.blockInstrs b = done' ++ rest ∧ Scoped f anc done' [] w' := by
  refine adds_ok (fun h => h.tidy.linked.placed) (fun h hb => ?_) h hb
  have hat : h.At b _ _ := ⟨hr, habove, hb⟩
  obtain ⟨w', done', hrun, hb', h', -⟩ := hat.add hlimit
  exact ⟨w', done', hrun, hb', h'⟩

theorem Scoped.enter (h : Scoped f anc [] [] w) (hlimit : limit ≤ 4) (hr : f.blocks.Reachable b)
    (habove : ∀ p, p ∈ anc ↔ f.blocks.StrictlyDominates p b) :
    ∃ w', w.enter limit b = .ok w' ∧ Scoped f (b :: anc) [] [] w' := by
  have hall : w.func.blockInstrs b = [] ++ (w.func.blockInstrs b ++ []) := by simp
  obtain ⟨w', done', hrun, hb, h'⟩ := h.adds hlimit hr habove hall
  rw [List.append_nil] at hb
  exact ⟨w', enter_eq.trans hrun, Scoped.open (hb ▸ h')⟩

theorem dropAll_ok (hs : Stacks w.groups w.classes) (l : List InstrId) :
    ∃ w', l.foldlM Walk.drop w = .ok w' ∧ w'.func = w.func ∧ w'.stats = w.stats ∧
      w'.nextSeq = w.nextSeq ∧ (∀ k, (w'.stackOf k).Sublist (w.stackOf k)) ∧
      Stacks w'.groups w'.classes ∧
      ∀ j, Assoc.get? w'.classes j = if j ∈ l then none else Assoc.get? w.classes j := by
  induction l generalizing w with
  | nil => exact ⟨w, rfl, rfl, rfl, rfl, fun _ => .refl _, hs, by simp⟩
  | cons i l ih =>
    obtain ⟨w₁, hrun, hfunc, hstats, hseq, hsub, hs₁, hget⟩ : ∃ w₁, w.drop i = .ok w₁ ∧
        w₁.func = w.func ∧ w₁.stats = w.stats ∧ w₁.nextSeq = w.nextSeq ∧
        (∀ k, (w₁.stackOf k).Sublist (w.stackOf k)) ∧ Stacks w₁.groups w₁.classes ∧
        ∀ j, Assoc.get? w₁.classes j = if j = i then none else Assoc.get? w.classes j := by
      cases hi : Assoc.get? w.classes i with
      | none =>
        refine ⟨w, by simp only [Walk.drop, hi]; rfl, rfl, rfl, rfl, fun _ => .refl _, hs,
          fun j => ?_⟩
        split
        · rename_i hji
          rw [hji, hi]
        · rfl
      | some key =>
        obtain ⟨e, groups, hdetach, -, hs'⟩ := hs.detach hi
        refine ⟨{ w with groups := groups, classes := Assoc.erase i w.classes }, ?_, rfl, rfl, rfl,
          fun k => ?_, hs', fun j => Assoc.get?_erase ..⟩
        · simp only [Walk.drop, hi, hdetach, ok_bind]
          rfl
        · rw [(stackOf_detach hdetach).2.1]
          split
          · rename_i hk
            rw [hk]
            exact List.erase_sublist
          · exact .refl _
    obtain ⟨w₂, hruns, hfunc₂, hstats₂, hseq₂, hsub₂, hs₂, hget₂⟩ := ih hs₁
    refine ⟨w₂, by simp only [List.foldlM_cons, hrun, ok_bind, hruns], hfunc₂.trans hfunc,
      hstats₂.trans hstats, hseq₂.trans hseq, fun k => (hsub₂ k).trans (hsub k), hs₂, fun j => ?_⟩
    rw [hget₂, hget]
    by_cases hji : j = i <;> by_cases hjl : j ∈ l <;> simp [hji, hjl]

theorem Scoped.leave (h : Scoped f (b :: anc) [] [] w) :
    ∃ w', w.leave b = .ok w' ∧ w'.func = w.func ∧ w'.stats = w.stats ∧
      (∀ j k, Assoc.get? w'.classes j = some k ↔
        w.func.home? j ≠ some b ∧ Assoc.get? w.classes j = some k) ∧ Scoped f anc [] [] w' := by
  have hp := h.tidy.linked.placed
  obtain ⟨w', hrun, hfunc, hstats, hseq, hsub, hs, hget⟩ :=
    dropAll_ok h.paired (w.func.blockInstrs b).reverse
  have hkept : ∀ j k, Assoc.get? w'.classes j = some k ↔
      w.func.home? j ≠ some b ∧ Assoc.get? w.classes j = some k := by
    intro j k
    rw [hget, Ne, ← hp.mem_iff]
    by_cases hj : j ∈ w.func.blockInstrs b <;> simp [hj]
  refine ⟨w', hrun, hfunc, hstats, hkept, hfunc ▸ h.tidy, hfunc ▸ h.verified, hfunc ▸ h.flow, hs,
    fun j k hj => ?_, fun j k hj => ?_, h.linear.thin hsub hseq hfunc⟩
  · rw [hfunc]
    exact h.classed j k ((hkept j k).mp hj).2
  · obtain ⟨hne, hj⟩ := (hkept j k).mp hj
    rw [hfunc]
    rcases h.standing j k hj with hm | ⟨c, hc, hhome⟩
    · cases hm
    · rcases List.mem_cons.mp hc with rfl | hc
      · exact absurd hhome hne
      · exact .inr ⟨c, hc, hhome⟩

theorem Scoped.visits {visits : List DominatorTree.Visit} (hlimit : limit ≤ 4)
    (ht : f.blocks.Tours anc seen visits anc' seen') (h : Scoped f anc [] [] w) :
    ∃ w', visits.foldlM (Walk.visit limit) w = .ok w' ∧ Scoped f anc' [] [] w' := by
  refine visits_ok (P := fun anc _ => Scoped f anc [] []) (fun h hr habove _ => ?_)
    (fun h _ => ?_) ht h
  · exact h.enter hlimit hr habove
  · obtain ⟨w', hrun, -, -, -, h'⟩ := h.leave
    exact ⟨w', hrun, h'⟩

theorem Scoped.eq_nil (h : Scoped f [] [] [] w) : w.groups = [] ∧ w.classes = [] :=
  h.paired.eq_nil fun i => by
    cases hi : Assoc.get? w.classes i with
    | none => rfl
    | some key => simpa [Function.Passed] using h.standing i key hi

section Reports

variable {w' : Walk}

/-- There is progress exactly if merges have been counted. -/
def Reports (w : Walk) : Prop := w.progress = decide (0 < w.stats.merged)

theorem Reports.idles (h : w.Reports) (hi : w.Idles w') : w'.Reports := by
  rwa [Reports, hi.merged, hi.progress]

theorem Reports.add (h : w.Reports) (ha : w.add limit i = .ok w') : w'.Reports := by
  obtain ⟨o, -, ha⟩ := bind_eq_ok.mp ha
  cases o with
  | none =>
    cases ha
    exact h
  | some key =>
    obtain ⟨⟨refused, hit⟩, -, ha⟩ := bind_eq_ok.mp ha
    cases hit with
    | none =>
      cases ha
      exact h
    | some hit =>
      refine Reports.idles ?_ (idles_of_foldlM (fun _ _ _ => idles_of_reclassify) ha)
      exact (decide_eq_true (Nat.succ_pos _)).symm

theorem Reports.foldlM {α : Type} {step : Walk → α → Checked Walk}
    (hstep : ∀ w a w', w.Reports → step w a = .ok w' → w'.Reports) {l : List α}
    (h : w.Reports) (hrun : l.foldlM step w = .ok w') : w'.Reports := by
  induction l generalizing w with
  | nil =>
    cases hrun
    exact h
  | cons a l ih =>
    obtain ⟨w₁, h₁, hrest⟩ := bind_eq_ok.mp hrun
    exact ih (hstep w a w₁ h h₁) hrest

theorem Reports.visit {v : DominatorTree.Visit} (h : w.Reports)
    (hv : w.visit limit v = .ok w') : w'.Reports := by
  cases v with
  | enter b =>
    refine h.foldlM (fun w i w' h hi => ?_) hv
    obtain ⟨x, -, hi⟩ := bind_eq_ok.mp hi
    split at hi
    · cases hi
      exact h
    · exact h.add hi
  | leave b => exact h.idles (idles_of_foldlM (fun _ _ _ => idles_of_drop) hv)

end Reports

end Walk

namespace Function

variable {f g : Function} {limit : Nat} {w : Walk}

/-- What is known about the flow may differ, the code does not. -/
structure SameCode (f g : Function) : Prop where
  instrs : g.instrs = f.instrs
  values : g.values = f.values
  blocks : g.blocks = f.blocks

namespace SameCode

theorem refl (f : Function) : f.SameCode f := ⟨rfl, rfl, rfl⟩

theorem trans {k : Function} (h : f.SameCode g) (h' : g.SameCode k) : f.SameCode k :=
  ⟨h'.instrs.trans h.instrs, h'.values.trans h.values, h'.blocks.trans h.blocks⟩

theorem requireDominance (f : Function) : f.SameCode f.requireDominance.2 := by
  unfold Function.requireDominance
  split <;> exact ⟨rfl, rfl, rfl⟩

theorem preserve (f : Function) (kept : Metadata) : f.SameCode (f.preserve kept) := ⟨rfl, rfl, rfl⟩

theorem body (h : f.SameCode g) : g.body? = f.body? := by
  funext i
  rw [body?, body?, h.instrs]

theorem reshaped (h : f.SameCode g) : f.Reshaped g where
  dest := by funext i; rw [dest?, dest?, h.instrs]
  shape := by funext v; rw [shape?, shape?, h.values]
  source := by funext v; rw [source?, source?, h.values]
  home := by funext i; rw [home?, home?, h.instrs]
  blocks := by funext b; rw [blockInstrs, blockInstrs, h.blocks]
  flow b := by rw [h.blocks]

theorem terminator (h : f.SameCode g) : g.terminator? = f.terminator? := by
  funext b
  rw [terminator?, terminator?, h.blocks]

theorem reads (h : f.SameCode g) : g.reads? = f.reads? := by
  funext u
  simp only [reads?, srcs?_eq_map, h.body, h.reshaped.home]

theorem condition (h : f.SameCode g) : g.condition? = f.condition? := by
  funext b
  rw [condition?, condition?, h.terminator]

theorem verified (h : f.SameCode g) (hf : f.Verified) : g.Verified := by
  refine h.reshaped.verified (fun u v hv => ?_) (fun b v hv => ?_) fun i b body hi hbody => ?_
  · exact hf.closed.source u v (h.reads ▸ hv)
  · exact hf.closed.condition b v (h.condition ▸ hv)
  · exact hf.fits i b body hi (h.body ▸ hbody)

end SameCode

theorem requireDominance_tree (hf : f.Linked) :
    f.requireDominance.1 = DominatorTree.build f.requireDominance.2.blocks := by
  unfold Function.requireDominance
  cases hd : f.dominance with
  | none => rfl
  | some t => exact hf.cached t hd

theorem Tidy.tours (hf : f.Tidy) : f.requireDominance.2.Tidy ∧
    ∃ seen, f.requireDominance.2.blocks.Tours [] [] f.requireDominance.1.tour [] seen ∧
      ∀ c, c ∈ seen ↔ f.requireDominance.2.blocks.Reachable c := by
  have hf' : f.requireDominance.2.Tidy := hf.apply (e := .requireDominance) trivial rfl
  have hedges := hf'.linked.edges
  rw [requireDominance_tree hf.linked]
  exact ⟨hf', DominatorTree.tours_tour hedges.wired⟩

/-- One walk makes `g` of `f`, and the totals of a caller go up by its counts or overflow. -/
structure MergesAll (f : Function) (limit : Nat) (changed : Bool) (counts : MergeStats)
    (g : Function) : Prop where
  walk : f.mergeWalk limit = .ok (changed, counts, g)
  totals : ∀ totals, f.mergeAll limit totals = (totals.merge counts).map (changed, ·, g)

theorem MergesAll.of_walk {changed : Bool} {counts : MergeStats} {g : Function}
    (h : f.mergeWalk limit = .ok (changed, counts, g)) : f.MergesAll limit changed counts g := by
  refine ⟨h, fun totals => ?_⟩
  simp only [mergeAll, h, ok_bind]
  cases totals.merge counts <;> rfl

theorem mergesAll_of_tour
    (hrun : f.requireDominance.1.tour.foldlM (Walk.visit limit) (.start f.requireDominance.2) =
      .ok w) (hempty : w.groups = [] ∧ w.classes = []) :
    f.MergesAll limit (decide (0 < w.stats.merged)) w.stats (w.func.preserve .all) := by
  have hstart : (Walk.start f.requireDominance.2).Reports := rfl
  have hreports : w.progress = decide (0 < w.stats.merged) :=
    hstart.foldlM (fun w v w' h hv => h.visit hv) hrun
  refine .of_walk ?_
  simp only [mergeWalk, hrun, ok_bind, hempty, List.isEmpty_nil, Bool.and_self, Checked.require,
    if_true, hreports]
  rfl

end Function

namespace Walk

variable {f : Function} {limit : Nat} {b : BlockId} {i : InstrId} {w : Walk}

/-- The walk through `f` comes to `i` in block `b` with its stacks as in `w`. -/
def Comes (f : Function) (limit : Nat) (b : BlockId) (i : InstrId) (w : Walk) : Prop :=
  ∃ before after done rest w₀, f.requireDominance.1.tour = before ++ .enter b :: after ∧
    before.foldlM (visit limit) (.start f.requireDominance.2) = .ok w₀ ∧
    w₀.func.blockInstrs b = done ++ i :: rest ∧ done.foldlM (addLive limit) w₀ = .ok w

/-- On the stack of each class are instructions of that class in blocks that dominate `b`, each
instruction on one stack and once, the ones above behind those below. -/
structure Nested (w : Walk) (b : BlockId) : Prop where
  classed : ∀ key, ∀ e ∈ w.stackOf key, w.func.classOf e.instr = .ok (some key)
  above : ∀ key, ∀ e ∈ w.stackOf key,
    ∃ c, w.func.home? e.instr = some c ∧ w.func.blocks.Dominates c b
  listed : ∀ j key, Assoc.get? w.classes j = some key ↔ ∃ e ∈ w.stackOf key, e.instr = j
  once : ∀ key key', ∀ e ∈ w.stackOf key, ∀ e' ∈ w.stackOf key', e.instr = e'.instr →
    key = key' ∧ e = e'
  sorted : ∀ key, (w.stackOf key).Pairwise fun upper lower =>
    lower.seq < upper.seq ∧ w.func.Precedes lower.instr upper.instr

theorem Comes.scoped (h : Comes f limit b i w) (hf : f.Tidy) (hv : f.Verified)
    (hlimit : limit ≤ 4) :
    ∃ anc done rest, ∃ hs : Scoped f.requireDominance.2 anc done [] w, hs.At b i rest := by
  obtain ⟨before, after, done, rest, w₀, htour, hrun, hblock, hdone⟩ := h
  obtain ⟨hf', seen, htours, -⟩ := hf.tours
  have hv' := (Function.SameCode.requireDominance f).verified hv
  rw [htour] at htours
  obtain ⟨anc, seen', hleft, hright⟩ := htours.split
  obtain ⟨w₁, hrun₁, h₁⟩ := (Scoped.start hf' hv').visits hlimit hleft
  obtain rfl : w₁ = w₀ := Except.ok.inj (hrun₁.symm.trans hrun)
  cases hright with
  | enter hr habove _ _ =>
    obtain ⟨w₂, done', hrun₂, hb, h₂⟩ := h₁.adds hlimit hr habove hblock
    obtain rfl : w₂ = w := Except.ok.inj (hrun₂.symm.trans hdone)
    exact ⟨anc, done', rest, h₂, hr, habove, hb⟩

theorem Scoped.At.nested {g : Function} {anc : List BlockId} {done rest : List InstrId}
    {h : Scoped g anc done [] w} (ha : h.At b i rest) : w.Nested b where
  classed key e he := by
    obtain ⟨hclass, c, hc⟩ := h.linked (h.get?_of_mem he)
    obtain ⟨k, hrun, hk⟩ := Function.classOf_ok h.tidy.linked.defined hc
    obtain rfl := (hk key).mpr hclass
    exact hrun
  above key e he := by
    rcases ha.before_of_stacked (h.get?_of_mem he) with hd | ⟨c, hc, hdom⟩
    · exact ⟨b, h.tidy.linked.placed.mem_iff.mp (by simp [ha.block, hd]), .refl _ _⟩
    · exact ⟨c, hc, hdom.2⟩
  listed j key := by
    rw [h.paired.mem_stackOf, List.mem_map]
  once key key' e he e' he' hsame := h.key_unique he he' hsame
  sorted key := (h.linear.sorted key).imp_of_mem fun hx hy hlt =>
    ⟨hlt, h.linear.order _ _ ⟨key, hy⟩ ⟨key, hx⟩ hlt⟩

end Walk

namespace Function

variable {f : Function} {limit : Nat}

/-- Whatever the walk comes to finds the stacks in order: what it is tried with is of its class and
stands before it. No step fails, and at the end the stacks are empty. -/
theorem walk_nested (hr : f.Reached) (hcheck : f.check = .ok (.ok ())) (hlimit : limit ≤ 4) :
    (∀ b i w, Walk.Comes f limit b i w → w.Nested b ∧ w.func.home? i = some b ∧
      (∀ key, w.func.classOf i = .ok (some key) → ∀ e ∈ w.stackOf key,
        w.func.Precedes e.instr i ∧ ∃ result, w.func.merge? e.instr i limit = .ok result) ∧
      ∃ w', w.add limit i = .ok w') ∧
    ∃ w, f.requireDominance.1.tour.foldlM (Walk.visit limit) (.start f.requireDominance.2) =
        .ok w ∧ w.groups = [] ∧ w.classes = [] ∧
      f.MergesAll limit (decide (0 < w.stats.merged)) w.stats (w.func.preserve .all) := by
  have hv := verified_of_check hr.linked hcheck
  have hf : f.Tidy := ⟨hr, hv.small hr.linked⟩
  refine ⟨fun b i w hcomes => ?_, ?_⟩
  · obtain ⟨anc, done, rest, h, ha⟩ := hcomes.scoped hf hv hlimit
    have hhome : w.func.home? i = some b := h.tidy.linked.placed.mem_iff.mp (by simp [ha.block])
    obtain ⟨w', -, hadd, -⟩ := ha.add hlimit
    refine ⟨ha.nested, hhome, fun key hkey e he => ?_, w', hadd⟩
    have hget := h.get?_of_mem he
    have hbefore := ha.precedes_of_stacked hget
    have hin := inClass_of_classOf h.tidy.linked.defined hhome hkey
    have hne : e.instr ≠ i := by
      intro hei
      simp [hei, ha.unstacked] at hget
    refine ⟨hbefore, ?_⟩
    rcases merge_ok h.tidy h.verified (h.linked hget).1 hin hne hlimit with
      ⟨hnone, -⟩ | ⟨_, _, _, _, _, _, _, _, _, _, _, _, hsome, -⟩
    · exact ⟨_, hnone⟩
    · exact ⟨_, hsome⟩
  · obtain ⟨hf', seen, htours, -⟩ := hf.tours
    have hv' := (SameCode.requireDominance f).verified hv
    obtain ⟨w, hrun, hw⟩ := (Walk.Scoped.start hf' hv').visits hlimit htours
    exact ⟨w, hrun, hw.eq_nil.1, hw.eq_nil.2, mergesAll_of_tour hrun hw.eq_nil⟩

/-- A sum that is one with a sum of the next block, the products of either, and a product that reads
itself. -/
def relayEdits : List Edit :=
  [.insert (.stop ⟨0⟩) (.const [3, 5]) (some ⟨2, 32⟩),
    .insert (.stop ⟨0⟩) (.alu ⟨.iadd, [.channel ⟨0⟩ 0, .channel ⟨0⟩ 1]⟩) (some ⟨1, 32⟩),
    .insert (.stop ⟨0⟩) (.alu ⟨.imul, [.whole ⟨1⟩, .whole ⟨1⟩]⟩) (some ⟨1, 32⟩),
    .insert (.stop ⟨0⟩) (.alu ⟨.imul, [.whole ⟨2⟩, .whole ⟨2⟩]⟩) (some ⟨1, 32⟩),
    .replaceSource ⟨3⟩ 0 ⟨3⟩, .addBlock, .setTerminator ⟨0⟩ (.jump ⟨1⟩),
    .insert (.stop ⟨1⟩) (.alu ⟨.iadd, [.channel ⟨0⟩ 1, .channel ⟨0⟩ 1]⟩) (some ⟨1, 32⟩),
    .insert (.stop ⟨1⟩) (.alu ⟨.imul, [.whole ⟨4⟩, .whole ⟨4⟩]⟩) (some ⟨1, 32⟩)]

/-- The sums have been merged when the walk comes to the second product, and the first product has
its place on the stack of the new class. -/
theorem walk_nested_relayEdits :
    (Edit.outcome relayEdits).Reached ∧ (Edit.outcome relayEdits).check = .ok (.ok ()) ∧
      ∃ w, Walk.Comes (Edit.outcome relayEdits) 4 ⟨1⟩ ⟨5⟩ w ∧ w.Nested ⟨1⟩ ∧
        w.func.classOf ⟨5⟩ = .ok (some ⟨.imul, 32, [⟨6⟩, ⟨6⟩]⟩) ∧
        w.stackOf ⟨.imul, 32, [⟨6⟩, ⟨6⟩]⟩ = [⟨⟨2⟩, 1⟩] ∧ w.func.Precedes ⟨2⟩ ⟨5⟩ := by
  have hreached := Reached.outcome relayEdits
  have hcheck : (Edit.outcome relayEdits).check = .ok (.ok ()) := rfl
  have hcalc : (do
      let w₀ ← [DominatorTree.Visit.enter ⟨0⟩].foldlM (Walk.visit 4)
        (.start (Edit.outcome relayEdits).requireDominance.2)
      let w ← [⟨4⟩].foldlM (Walk.addLive 4) w₀
      let key ← w.func.classOf ⟨5⟩
      return decide (w₀.func.blockInstrs ⟨1⟩ = [⟨4⟩, ⟨5⟩] ∧
        key = some ⟨.imul, 32, [⟨6⟩, ⟨6⟩]⟩ ∧
        w.stackOf ⟨.imul, 32, [⟨6⟩, ⟨6⟩]⟩ = [⟨⟨2⟩, 1⟩]) : Checked Bool) = .ok true :=
    toOption_eq_some.mp (by decide +kernel)
  have htour : (Edit.outcome relayEdits).requireDominance.1.tour =
      [.enter ⟨0⟩] ++ .enter ⟨1⟩ :: [.leave ⟨1⟩, .leave ⟨0⟩] := by decide +kernel
  obtain ⟨w₀, hw₀, hcalc⟩ := bind_eq_ok.mp hcalc
  obtain ⟨w, hw, hcalc⟩ := bind_eq_ok.mp hcalc
  obtain ⟨key, hkey, hcalc⟩ := bind_eq_ok.mp hcalc
  obtain ⟨hblock, rfl, hstack⟩ := of_decide_eq_true (Except.ok.inj hcalc)
  have hcomes : Walk.Comes (Edit.outcome relayEdits) 4 ⟨1⟩ ⟨5⟩ w :=
    ⟨_, _, [⟨4⟩], [], w₀, htour, hw₀, hblock, hw⟩
  obtain ⟨hnested, -, hpairs, -⟩ :=
    (walk_nested hreached hcheck (Nat.le_refl 4)).1 ⟨1⟩ ⟨5⟩ w hcomes
  have hmem : (⟨⟨2⟩, 1⟩ : Entry) ∈ w.stackOf ⟨.imul, 32, [⟨6⟩, ⟨6⟩]⟩ := by simp [hstack]
  exact ⟨hreached, hcheck, w, hcomes, hnested, hkey, hstack, (hpairs _ hkey _ hmem).1⟩

end Function

end ShaderSSA
