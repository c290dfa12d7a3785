import ShaderSSA.Proofs.Forwarding

/-! What a merge leaves of a function. One instruction stands where the first of the pair stood,
with a copy of each half behind it where one is needed; every lane that was read of the pair is
read where the wide value has it, and everything else stays. -/

namespace ShaderSSA

/-- What the first `n` lanes that are read through an operand select. -/
def Operand.lanes (o : Operand) (n : Nat) : List (ValueId × Nat) :=
  (o.swizzle.toList.take n).map (o.value, ·)

/-- Where the wide value has a lane of the pair. -/
def Wide.locate (W : Wide) (hA hB : Half) (p : ValueId × Nat) : ValueId × Nat :=
  if p.1 = hA.value then (W.value, hA.offset + p.2)
  else if p.1 = hB.value then (W.value, hB.offset + p.2)
  else p

/-- What is read in place of a value by what is not arithmetic. -/
def Half.turn (hA hB : Half) (kA kB v : ValueId) : ValueId :=
  if v = hA.value then kA else if v = hB.value then kB else v

/-- The wide instruction in place of `a` and `b`, with `copiesA` and `copiesB` behind it. -/
structure Wide.TakesOver (W : Wide) (f : Function) (a b : InstrId) (hA hB : Half)
    (copiesA copiesB : List InstrId) (kA kB : ValueId) (g : Function) : Prop where
  removed : g.home? a = none ∧ g.home? b = none
  new : ∀ n ∈ W.instr :: (copiesA ++ copiesB), f.body? n = none
  blocks : ∀ c, g.blockInstrs c = (f.blockInstrs c).flatMap fun j =>
    if j = a then W.instr :: (copiesA ++ copiesB) else if j = b then [] else [j]
  wide : g.body? W.instr = some (.alu ⟨W.op, W.srcs⟩) ∧ g.dest? W.instr = some W.value ∧
    g.shape? W.value = some ⟨W.width, W.bits⟩
  width : W.width = hA.width + hB.width ∧ hA.offset = 0 ∧ hB.offset = hA.width
  first : f.dest? a = some hA.value ∧ f.shape? hA.value = some ⟨hA.width, W.bits⟩ ∧
    ∃ srcs, f.body? a = some (.alu ⟨W.op, srcs⟩) ∧ Covers W.srcs srcs hA.offset hA.width
  second : f.dest? b = some hB.value ∧ f.shape? hB.value = some ⟨hB.width, W.bits⟩ ∧
    ∃ srcs, f.body? b = some (.alu ⟨W.op, srcs⟩) ∧ Covers W.srcs srcs hB.offset hB.width
  copiesFirst : copiesA.length ≤ 1 ∧ ∀ n ∈ copiesA, W.Copies g hA n kA
  copiesSecond : copiesB.length ≤ 1 ∧ ∀ n ∈ copiesB, W.Copies g hB n kB
  arithmetic : ∀ j c al, f.home? j = some c → j ≠ a → j ≠ b → f.body? j = some (.alu al) →
    ∃ al', g.body? j = some (.alu al') ∧ al'.op = al.op ∧ al'.srcs.length = al.srcs.length ∧
      ∀ (s : Nat) o, al.srcs[s]? = some o → ∃ n o',
        al.op.readWidth? (f.destShape? j) s = some n ∧ al'.srcs[s]? = some o' ∧
        o'.lanes n = (o.lanes n).map (W.locate hA hB) ∧
        (o.value ≠ hA.value → o.value ≠ hB.value → o' = o)
  other : ∀ j c body, f.home? j = some c → f.body? j = some body → body.alu? = none →
    g.body? j = some (body.mapSrcs fun _ => hA.turn hB kA kB) ∧
      (hA.value ∈ body.srcs → copiesA ≠ []) ∧ (hB.value ∈ body.srcs → copiesB ≠ [])
  branch : ∀ c, g.terminator? c = (f.terminator? c).map (·.rename (hA.turn hB kA kB)) ∧
    (f.condition? c = some hA.value → copiesA ≠ []) ∧
    (f.condition? c = some hB.value → copiesB ≠ [])
  kept : ∀ j c, f.home? j = some c → j ≠ a → j ≠ b →
    g.home? j = some c ∧ g.dest? j = f.dest? j
  shape : ∀ v s, f.shape? v = some s → g.shape? v = some s

theorem Operand.lanes_forward (o : Operand) (w : ValueId) (h : Half) (n : Nat) :
    (o.forward w h n).lanes n =
      (o.lanes n).map fun p => if p.1 = h.value then (w, h.offset + p.2) else p := by
  rw [lanes, lanes, List.map_map, forward]
  by_cases hv : o.value = h.value
  · rw [if_pos hv, Swizzle.take_shifted, List.map_map]
    refine List.map_congr_left fun k _ => ?_
    simp [hv, Nat.add_comm]
  · rw [if_neg hv]
    refine List.map_congr_left fun k _ => ?_
    simp [hv]

theorem Body.forward_of_not_mem {w k : ValueId} {h : Half} {dest : Option Shape} {body : Body}
    (hnot : h.value ∉ body.srcs) : body.forward w h k dest = body := by
  have hm : body.Moved w h (some k) dest body := .refl body
  exact (hm.complete hnot).1.symm

theorem Rewiring.mem_trail {r : Rewiring} {n : InstrId} :
    n ∈ r.trail ↔ ∃ k, r.copy = some k ∧ r.anchor = n := by
  rw [trail]
  cases r.copy with
  | none => simp
  | some k => simp [eq_comm]

theorem Rewiring.length_trail (r : Rewiring) : r.trail.length ≤ 1 := by
  rw [trail]
  split <;> simp

namespace Function

variable {f g f₁ f₂ : Function} {a b j : InstrId} {key : ClassKey} {srcsA srcsB : List Operand}
  {va vb : ValueId} {widthA widthB : Nat} {W : Wide} {mid r : Rewiring} {c : BlockId} {body : Body}

theorem terminator?_remove {i : InstrId} (h : f.remove i = .ok g) :
    g.terminator? = f.terminator? := by
  obtain ⟨x, U, -, -, -, -, rfl⟩ := remove_ok h
  refine terminator?_mapBlocks fun c y => ?_
  split <;> rfl

namespace Fusion

variable (h : f.Fusion a b key srcsA srcsB va vb widthA widthB W f₁ mid r f₂ g)

include h

theorem ne_values (hf : f.Defined) : va ≠ vb := by
  rintro rfl
  have ha := (hf.iff a va).mp h.first.dest
  have hb := (hf.iff b va).mp h.second.dest
  exact h.apart (Option.some.inj (ha.symm.trans hb))

/-- The readers of each half have been forwarded. -/
theorem forwarded : Rewiring.Forwarded W ⟨va, 0, widthA⟩ f₁ W.instr mid ∧
    Rewiring.Forwarded W ⟨vb, widthA, widthB⟩ mid.func mid.anchor r := by
  have hstart := Rewiring.Steady.start h.widens.tidy h.widens.verified h.offersA
  obtain ⟨hmid, -⟩ := h.turns.steady h.widens.tidy h.widens.verified h.offersA h.offersB
  exact ⟨h.turns.first.forwarded hstart h.widens.tidy.linked.defined rfl,
    h.turns.second.forwarded hmid hmid.tidy.linked.defined rfl⟩

theorem unread_mid (hf : f.Defined) :
    (∀ u, mid.func.reads? u ≠ some va) ∧ ∀ c, mid.func.condition? c ≠ some va := by
  have hne := h.ne_values hf
  have hsecond := h.forwarded.2
  refine ⟨fun u hu => ?_, fun c hc => ?_⟩
  · exact h.turns.unread ⟨va, 0, widthA⟩ (by simp) u (hsecond.reads_of_ne hu hne)
  · exact h.turns.untested ⟨va, 0, widthA⟩ (by simp) c (hsecond.condition_of_ne hc hne)

theorem copy_ne (hf : f.Defined) : mid.copy.getD va ≠ vb := by
  cases hk : mid.copy with
  | none => exact h.ne_values hf
  | some k =>
    -- the copy was no value when the second half already was
    have hnew := (h.forwarded.1.fresh k hk).2
    have hold : f₁.hasValue vb := hasValue_of_shape h.offersB.half
    intro heq
    obtain rfl : k = vb := heq
    simp [hold] at hnew

theorem turn_eq (hf : f.Defined) (k : ValueId) :
    (fun v => handOver vb k (handOver va (mid.copy.getD va) v)) =
      Half.turn ⟨va, 0, widthA⟩ ⟨vb, widthA, widthB⟩ (mid.copy.getD va) k := by
  have hne := h.copy_ne hf
  funext v
  by_cases hv : v = va
  · simp [Half.turn, handOver, hv, hne]
  · simp [Half.turn, handOver, hv]

theorem fresh {n : InstrId} (hn : n ∈ mid.trail ++ r.trail) : f₁.body? n = none := by
  obtain ⟨hA, hB⟩ := h.forwarded
  rcases List.mem_append.mp hn with hn | hn
  · obtain ⟨k, hk, rfl⟩ := Rewiring.mem_trail.mp hn
    exact (hA.fresh k hk).1
  · obtain ⟨k, hk, rfl⟩ := Rewiring.mem_trail.mp hn
    have hnone := (hB.fresh k hk).1
    cases hb : f₁.body? r.anchor with
    | none => rfl
    | some body =>
      obtain ⟨body', hb', -⟩ := hA.body _ body hb
      simp [hnone] at hb'

theorem body_eq (hf : f.Tidy) (hj : f₁.home? j = some c) (hb : f₁.body? j = some body)
    (hja : j ≠ a) (hjb : j ≠ b) :
    g.body? j = some ((body.forward W.value ⟨va, 0, widthA⟩ (mid.copy.getD va)
        (f₁.destShape? j)).forward W.value ⟨vb, widthA, widthB⟩ (r.copy.getD vb)
        (f₁.destShape? j)) ∧
      (body.alu? = none → (va ∈ body.srcs → mid.trail ≠ []) ∧ (vb ∈ body.srcs → r.trail ≠ [])) := by
  obtain ⟨hA, hB⟩ := h.forwarded
  have hdef := hf.linked.defined
  have hne := h.ne_values hdef
  obtain ⟨hbody, hcopyA⟩ := hA.body_eq (h.unread_mid hdef).1 hj hb
  have hhome := (hA.home j body hb).trans hj
  obtain ⟨hbody', hcopyB⟩ := hB.body_eq (h.turns.unread _ (by simp)) hhome hbody
  rw [hA.destShape h.widens.tidy.linked.defined hb] at hbody'
  refine ⟨?_, fun halu => ⟨fun hmem => ?_, fun hmem => ?_⟩⟩
  · rw [h.without.body j c ((hB.home j _ hbody).trans hhome) hja hjb, hbody']
  · simp [Rewiring.trail, hcopyA halu hmem]
  · obtain ⟨body', hb', hm⟩ := hA.body j body hb
    obtain rfl := Option.some.inj (hbody.symm.trans hb')
    have halu' : (body.forward W.value ⟨va, 0, widthA⟩ (mid.copy.getD va)
        (f₁.destShape? j)).alu? = none := by
      have hsome := hm.alu?_isSome
      simpa [halu] using hsome
    obtain ⟨s, hs⟩ := List.getElem?_of_mem hmem
    have hmem' := List.mem_of_getElem? (hm.srcs_of_ne hs (Ne.symm hne))
    simp [Rewiring.trail, hcopyB halu' hmem']

theorem kept (hj : f₁.home? j = some c) (hb : f₁.body? j = some body) (hja : j ≠ a)
    (hjb : j ≠ b) : g.home? j = some c ∧ g.dest? j = f₁.dest? j := by
  obtain ⟨hA, hB⟩ := h.forwarded
  obtain ⟨body', hb', -⟩ := hA.body j body hb
  have hhome : r.func.home? j = some c := by rw [hB.home j _ hb', hA.home j _ hb, hj]
  refine ⟨h.without.home j c hhome hja hjb, ?_⟩
  rw [h.without.dest, hB.dest j _ hb', hA.dest j _ hb]

theorem shape_eq {v : ValueId} {s : Shape} (hs : f₁.shape? v = some s) : g.shape? v = some s := by
  obtain ⟨hA, hB⟩ := h.forwarded
  rw [h.without.shape]
  exact hB.shape v s (hA.shape v s hs)

theorem body_new {n : InstrId} (hn : n ∈ W.instr :: (mid.trail ++ r.trail)) :
    f.body? n = none := by
  have happ := h.widens.appended
  rcases List.mem_cons.mp hn with rfl | hn
  · simp [body?, happ.fresh]
  · have hnone := h.fresh hn
    rw [happ.body] at hnone
    split at hnone
    · cases hnone
    · exact hnone

theorem not_home {n : InstrId} (hn : n ∈ W.instr :: (mid.trail ++ r.trail)) (c : BlockId) :
    f.home? n ≠ some c := by
  intro hc
  obtain ⟨x, hx, -⟩ := home?_eq_some.mp hc
  have hnone := h.body_new hn
  simp [body?, hx] at hnone

theorem new_ne {n : InstrId} (hn : n ∈ W.instr :: (mid.trail ++ r.trail)) : n ≠ a ∧ n ≠ b :=
  h.ne_pair (fun _ => h.not_home) hn

theorem blocks_turned (c : BlockId) : r.func.blockInstrs c = (f₁.blockInstrs c).flatMap fun j =>
    if j = W.instr then W.instr :: (mid.trail ++ r.trail) else [j] := by
  obtain ⟨hA, hB⟩ := h.forwarded
  rw [hB.blocks, hA.blocks]
  cases hk : mid.copy with
  | none => simp [hA.anchor hk, Rewiring.trail, hk, Rewiring.expand_self]
  | some k =>
    have hnew := (hA.fresh k hk).1
    have hWn : W.instr ≠ mid.anchor := by
      intro heq
      simp [← heq, h.widens.appended.body] at hnew
    rw [List.flatMap_assoc]
    refine List.flatMap_congr fun j hj => ?_
    have hjn : j ≠ mid.anchor := by
      rintro rfl
      obtain ⟨x, hx, -⟩ := home?_eq_some.mp (h.widens.tidy.linked.placed.mem_iff.mp hj)
      simp [body?, hx] at hnew
    by_cases hjW : j = W.instr
    · simp [hjW, Rewiring.trail, hk, hWn]
    · simp [hjW, hjn]

theorem blocks_eq (hf : f.Placed) (c : BlockId) :
    g.blockInstrs c = (f.blockInstrs c).flatMap fun j =>
      if j = a then W.instr :: (mid.trail ++ r.trail) else if j = b then [] else [j] := by
  have happ := h.widens.appended
  obtain ⟨hna, hnb⟩ := h.new_ne (List.mem_cons_self ..)
  have hapart : ∀ n ∈ mid.trail ++ r.trail, n ≠ a ∧ n ≠ b := fun n hn =>
    h.new_ne (List.mem_cons_of_mem _ hn)
  have hnew : W.instr ∉ f.blockInstrs c := fun hm => happ.ne_new (hf.mem_iff.mp hm) rfl
  rw [h.without.blocks, h.blocks_turned, happ.blocks,
    filter_filter_expand hna hnb (fun hm => (hapart a hm).1 rfl) (fun hm => (hapart b hm).2 rfl)
      hnew]

theorem terminator_eq (hf : f.Defined) (c : BlockId) :
    g.terminator? c = (f.terminator? c).map (·.rename
        (Half.turn ⟨va, 0, widthA⟩ ⟨vb, widthA, widthB⟩ (mid.copy.getD va) (r.copy.getD vb))) ∧
      (f.condition? c = some va → mid.trail ≠ []) ∧
      (f.condition? c = some vb → r.trail ≠ []) := by
  obtain ⟨hA, hB⟩ := h.forwarded
  have hsame : f₁.terminator? c = f.terminator? c := by rw [h.widens.appended.terminator]
  have hcond : f₁.condition? c = f.condition? c := by rw [condition?, hsame, condition?]
  obtain ⟨htA, hcopyA⟩ := hA.terminator_eq (h.unread_mid hf).2 c
  obtain ⟨htB, hcopyB⟩ := hB.terminator_eq (h.turns.untested _ (by simp)) c
  refine ⟨?_, fun hc => ?_, fun hc => ?_⟩
  · rw [terminator?_remove h.removeSecond, terminator?_remove h.removeFirst, htB, htA, hsame,
      Option.map_map]
    refine Option.map_congr fun t _ => ?_
    rw [Function.comp_apply, Terminator.rename_rename, h.turn_eq hf]
  · simp [Rewiring.trail, hcopyA (hcond.trans hc)]
  · have hc' := hA.condition_of_ne (hcond.trans hc) (Ne.symm (h.ne_values hf))
    simp [Rewiring.trail, hcopyB hc']

theorem home_pair (hf : f.Placed) : g.home? a = none ∧ g.home? b = none := by
  have hgone : ∀ j, j = a ∨ j = b → ∀ c, g.home? j ≠ some c := by
    intro j hj c hc
    have hmem := h.without.tidy.linked.placed.mem_iff.mpr hc
    rw [h.blocks_eq hf, List.mem_flatMap] at hmem
    obtain ⟨k, hk, hjk⟩ := hmem
    split at hjk
    · exact hj.elim (h.new_ne hjk).1 (h.new_ne hjk).2
    · split at hjk
      · simp at hjk
      · rename_i hka hkb
        obtain rfl : j = k := by simpa using hjk
        exact hj.elim hka hkb
  exact ⟨Option.eq_none_iff_forall_ne_some.mpr (hgone a (.inl rfl)),
    Option.eq_none_iff_forall_ne_some.mpr (hgone b (.inr rfl))⟩

theorem wide_eq (hf : f.Tidy) (hcalm : ∀ w ∈ key.srcs, w ≠ va ∧ w ≠ vb) :
    g.body? W.instr = some (.alu ⟨W.op, W.srcs⟩) ∧ g.dest? W.instr = some W.value ∧
      g.shape? W.value = some ⟨W.width, W.bits⟩ := by
  have happ := h.widens.appended
  obtain ⟨A, hA⟩ := h.first.linked
  have hhome : f₁.home? W.instr = some A := by rw [happ.home, if_pos rfl, hA]
  have hbody : f₁.body? W.instr = some (.alu ⟨W.op, W.srcs⟩) := by rw [happ.body, if_pos rfl]
  obtain ⟨hna, hnb⟩ := h.new_ne (List.mem_cons_self ..)
  have hsrcs : (Body.alu ⟨W.op, W.srcs⟩).srcs = key.srcs := h.widens.values
  have hdest := (h.kept hhome hbody hna hnb).2
  refine ⟨?_, ?_, h.shape_eq (by simp [happ.shape])⟩
  · rw [(h.body_eq hf hhome hbody hna hnb).1, Body.forward_of_not_mem, Body.forward_of_not_mem]
    · rw [hsrcs]
      exact fun hm => (hcalm va hm).1 rfl
    · rw [Body.forward_of_not_mem, hsrcs]
      · exact fun hm => (hcalm vb hm).2 rfl
      · rw [hsrcs]
        exact fun hm => (hcalm va hm).1 rfl
  · rw [hdest, happ.dest, if_pos rfl]

theorem copies_first {n : InstrId} (hn : n ∈ mid.trail) :
    W.Copies g ⟨va, 0, widthA⟩ n (mid.copy.getD va) := by
  obtain ⟨k, hk, rfl⟩ := Rewiring.mem_trail.mp hn
  obtain ⟨-, hB⟩ := h.forwarded
  have hsteady := h.turns.first.steady
    (Rewiring.Steady.start h.widens.tidy h.widens.verified h.offersA)
  obtain ⟨⟨⟨o, hbody, hvalue, htake⟩, hdest, hshape⟩, -⟩ := hsteady.copy k hk
  obtain ⟨c, hc⟩ := hsteady.anchored
  obtain ⟨hna, hnb⟩ := h.new_ne (List.mem_cons_of_mem _ (List.mem_append_left r.trail hn))
  have hnot : vb ∉ (Body.alu ⟨.mov, [o]⟩).srcs := by
    have hne := h.offersB.ne
    simpa [Body.srcs, hvalue] using hne
  have hbody' := (hB.body_eq (h.turns.unread _ (by simp)) hc hbody).1
  rw [Body.forward_of_not_mem hnot] at hbody'
  refine ⟨⟨o, ?_, hvalue, htake⟩, ?_, ?_⟩
  · rw [h.without.body _ c ((hB.home _ _ hbody).trans hc) hna hnb, hbody']
  · rw [h.without.dest, hB.dest _ _ hbody, hdest, hk, Option.getD_some]
  · rw [h.without.shape, hk, Option.getD_some]
    exact hB.shape _ _ hshape

theorem copies_second {n : InstrId} (hn : n ∈ r.trail) :
    W.Copies g ⟨vb, widthA, widthB⟩ n (r.copy.getD vb) := by
  obtain ⟨k, hk, rfl⟩ := Rewiring.mem_trail.mp hn
  obtain ⟨-, hsteady⟩ := h.turns.steady h.widens.tidy h.widens.verified h.offersA h.offersB
  obtain ⟨⟨⟨o, hbody, hvalue, htake⟩, hdest, hshape⟩, -⟩ := hsteady.copy k hk
  obtain ⟨c, hc⟩ := hsteady.anchored
  obtain ⟨hna, hnb⟩ := h.new_ne (List.mem_cons_of_mem _ (List.mem_append_right mid.trail hn))
  refine ⟨⟨o, ?_, hvalue, htake⟩, ?_, ?_⟩
  · rw [h.without.body _ c hc hna hnb, hbody]
  · rw [h.without.dest, hdest, hk, Option.getD_some]
  · rw [h.without.shape, hk, Option.getD_some, hshape]

theorem old_eq (hf : f.Defined) (hj : f.home? j = some c) (hb : f.body? j = some body) :
    f₁.home? j = some c ∧ f₁.body? j = some body ∧ f₁.destShape? j = f.destShape? j := by
  have happ := h.widens.appended
  exact ⟨happ.home_old hj, by rw [happ.body, if_neg (happ.ne_new hj), hb],
    happ.destShape_old hf hj⟩

/-- Every lane that arithmetic reads of the pair is read where the wide value has it. -/
theorem lanes_eq (hf : f.Tidy) (hv : f.Verified) {al : Alu} (hj : f.home? j = some c)
    (hb : f.body? j = some (.alu al)) (hja : j ≠ a) (hjb : j ≠ b) :
    ∃ al', g.body? j = some (.alu al') ∧ al'.op = al.op ∧ al'.srcs.length = al.srcs.length ∧
      ∀ (s : Nat) o, al.srcs[s]? = some o → ∃ n o',
        al.op.readWidth? (f.destShape? j) s = some n ∧ al'.srcs[s]? = some o' ∧
        o'.lanes n = (o.lanes n).map (W.locate ⟨va, 0, widthA⟩ ⟨vb, widthA, widthB⟩) ∧
        (o.value ≠ va → o.value ≠ vb → o' = o) := by
  obtain ⟨hj₁, hb₁, hshape⟩ := h.old_eq hf.linked.defined hj hb
  refine ⟨_, (h.body_eq hf hj₁ hb₁ hja hjb).1, rfl, by simp, fun s o ho => ?_⟩
  obtain ⟨n, -, hn, -⟩ := (hv.alu j c al hj hb).2 s o ho
  have hread : ∀ srcs, Alu.read ⟨al.op, srcs⟩ (f₁.destShape? j) s = n := fun srcs => by
    simp [Alu.read, hshape, hn]
  simp only [List.getElem?_mapIdx, ho, Option.map_some, hread]
  refine ⟨n, _, hn, rfl, ?_, fun hvA hvB => ?_⟩
  · rw [Operand.lanes_forward, Operand.lanes_forward, List.map_map]
    refine List.map_congr_left fun p _ => ?_
    have hne : W.value ≠ vb := Ne.symm h.offersB.ne
    by_cases hp : p.1 = va
    · simp [Wide.locate, hp, hne]
    · simp [Wide.locate, hp]
  · rw [Operand.forward, Operand.forward, if_neg hvA, if_neg hvB]

/-- Everything else that read one of the pair reads its copy. -/
theorem other_eq (hf : f.Tidy) (hj : f.home? j = some c) (hb : f.body? j = some body)
    (halu : body.alu? = none) :
    g.body? j = some (body.mapSrcs fun _ =>
        Half.turn ⟨va, 0, widthA⟩ ⟨vb, widthA, widthB⟩ (mid.copy.getD va) (r.copy.getD vb)) ∧
      (va ∈ body.srcs → mid.trail ≠ []) ∧ (vb ∈ body.srcs → r.trail ≠ []) := by
  have hdef := hf.linked.defined
  obtain ⟨hj₁, hb₁, -⟩ := h.old_eq hdef hj hb
  have hja : j ≠ a := by
    rintro rfl
    rw [← Option.some.inj (h.first.body.symm.trans hb)] at halu
    simp [Body.alu?] at halu
  have hjb : j ≠ b := by
    rintro rfl
    rw [← Option.some.inj (h.second.body.symm.trans hb)] at halu
    simp [Body.alu?] at halu
  obtain ⟨hbody, hcopies⟩ := h.body_eq hf hj₁ hb₁ hja hjb
  have halu' := (Body.alu?_mapSrcs_of_none
    (g := fun _ => handOver va (mid.copy.getD va)) halu).trans halu
  refine ⟨?_, hcopies halu⟩
  rw [hbody, Body.forward_of_other halu, Body.forward_of_other halu', Body.mapSrcs_mapSrcs]
  simp only [← h.turn_eq hdef]

theorem takesOver (hf : f.Tidy) (hv : f.Verified) (hcalm : ∀ w ∈ key.srcs, w ≠ va ∧ w ≠ vb) :
    W.TakesOver f a b ⟨va, 0, widthA⟩ ⟨vb, widthA, widthB⟩ mid.trail r.trail (mid.copy.getD va)
      (r.copy.getD vb) g where
  removed := h.home_pair hf.linked.placed
  new n hn := h.body_new hn
  blocks := h.blocks_eq hf.linked.placed
  wide := h.wide_eq hf hcalm
  width := ⟨h.widens.width, rfl, rfl⟩
  first := ⟨h.first.dest, by rw [h.first.shape, h.widens.bits], srcsA,
    by rw [h.first.body, h.widens.op], h.widens.left⟩
  second := ⟨h.second.dest, by rw [h.second.shape, h.widens.bits], srcsB,
    by rw [h.second.body, h.widens.op], h.widens.right⟩
  copiesFirst := ⟨mid.length_trail, fun n => h.copies_first⟩
  copiesSecond := ⟨r.length_trail, fun n => h.copies_second⟩
  arithmetic j c al hj hja hjb hb := h.lanes_eq hf hv hj hb hja hjb
  other j c body hj hb halu := h.other_eq hf hj hb halu
  branch := h.terminator_eq hf.linked.defined
  kept j c hj hja hjb := by
    have happ := h.widens.appended
    obtain ⟨x, hx, -⟩ := home?_eq_some.mp hj
    have hb : f.body? j = some x.body := by simp [body?, hx]
    obtain ⟨hj₁, hb₁, -⟩ := h.old_eq hf.linked.defined hj hb
    obtain ⟨hhome, hdest⟩ := h.kept hj₁ hb₁ hja hjb
    exact ⟨hhome, by rw [hdest, happ.dest, if_neg (happ.ne_new hj)]⟩
  shape v s hs := h.shape_eq (h.widens.appended.shape_old hs)

end Fusion

theorem home_of_classOf {i : InstrId} (h : f.classOf i = .ok (some key)) :
    ∃ c, f.home? i = some c := by
  obtain ⟨x, hx, h⟩ := bind_eq_ok.mp h
  refine ⟨x.block, home?_eq_some.mpr ⟨x, instr_eq_ok.mp hx, ?_, rfl⟩⟩
  cases hr : x.removed with
  | false => rfl
  | true => simp [canMerge, hx, ok_bind, hr, pure, Except.pure] at h

/-- Merging a pair of one class that does not read itself forwards every reader to the same lanes,
or does nothing if the result would be too wide. -/
theorem merge?_takesOver {limit : Nat} (hr : f.Reached) (hcheck : f.check = .ok (.ok ()))
    (hlimit : limit ≤ 4) (hne : a ≠ b) (ha : f.classOf a = .ok (some key))
    (hb : f.classOf b = .ok (some key))
    (hcalm : ∀ v ∈ key.srcs, f.dest? a ≠ some v ∧ f.dest? b ≠ some v) :
    (limit < f.width a + f.width b → f.merge? a b limit = .ok none) ∧
    (f.width a + f.width b ≤ limit → ∃ (m : Merged) (g : Function) (W : Wide)
      (hA hB : Half) (copiesA copiesB : List InstrId) (kA kB : ValueId),
      f.merge? a b limit = .ok (some (m, g)) ∧ m.instr = W.instr ∧
      W.TakesOver f a b hA hB copiesA copiesB kA kB g) := by
  have hv := verified_of_check hr.linked hcheck
  have hf : f.Tidy := ⟨hr, hv.small hr.linked⟩
  have hdef := hf.linked.defined
  obtain ⟨A, hA⟩ := home_of_classOf ha
  obtain ⟨B, hB⟩ := home_of_classOf hb
  rcases merge_ok hf hv (inClass_of_classOf hdef hA ha) (inClass_of_classOf hdef hB hb) hne hlimit
    with ⟨hnone, hlt⟩ | ⟨srcsA, srcsB, va, vb, widthA, widthB, W, f₁, mid, r, f₂, g, hg, h, hle⟩
  · exact ⟨fun _ => hnone, fun hle => by omega⟩
  · refine ⟨fun hlt => by omega, fun _ => ⟨_, g, W, _, _, _, _, _, _, hg, rfl,
      h.takesOver hf hv fun w hw => ?_⟩⟩
    obtain ⟨hwa, hwb⟩ := hcalm w hw
    refine ⟨?_, ?_⟩
    · rintro rfl
      exact hwa h.first.dest
    · rintro rfl
      exact hwb h.second.dest

/-- A sum that decides a branch and a wider one of its class that is stored, both multiplied. -/
def pairEdits : List Edit :=
  [.insert (.stop ⟨0⟩) (.const [3, 5]) (some ⟨2, 32⟩),
    .insert (.stop ⟨0⟩) (.const [0]) (some ⟨1, 32⟩),
    .insert (.stop ⟨0⟩) (.alu ⟨.iadd, [.channel ⟨0⟩ 0, .channel ⟨0⟩ 1]⟩) (some ⟨1, 32⟩),
    .insert (.stop ⟨0⟩) (.alu ⟨.iadd, [.whole ⟨0⟩, .whole ⟨0⟩]⟩) (some ⟨2, 32⟩),
    .insert (.stop ⟨0⟩) (.alu ⟨.imul, [.channel ⟨2⟩ 0, .channel ⟨3⟩ 1]⟩) (some ⟨1, 32⟩),
    .insert (.stop ⟨0⟩) (.access ⟨.storeOutput, 2, [⟨3⟩, ⟨1⟩], 0, 0, 3⟩) none,
    .addBlock, .setTerminator ⟨0⟩ (.branch ⟨2⟩ ⟨0⟩ ⟨1⟩)]

theorem merge?_takesOver_pairEdits :
    (Edit.outcome pairEdits).Reached ∧ (Edit.outcome pairEdits).check = .ok (.ok ()) ∧
      (Edit.outcome pairEdits).classOf ⟨2⟩ = .ok (some ⟨.iadd, 32, [⟨0⟩, ⟨0⟩]⟩) ∧
      (Edit.outcome pairEdits).classOf ⟨3⟩ = .ok (some ⟨.iadd, 32, [⟨0⟩, ⟨0⟩]⟩) ∧
      (Edit.outcome pairEdits).merge? ⟨2⟩ ⟨3⟩ 2 = .ok none ∧
      ∃ (m : Merged) (g : Function) (W : Wide) (hA hB : Half) (copiesA copiesB : List InstrId)
        (kA kB : ValueId),
        (Edit.outcome pairEdits).merge? ⟨2⟩ ⟨3⟩ 4 = .ok (some (m, g)) ∧ m.instr = W.instr ∧
        W.TakesOver (Edit.outcome pairEdits) ⟨2⟩ ⟨3⟩ hA hB copiesA copiesB kA kB g := by
  have hr := Reached.outcome pairEdits
  have hcheck : (Edit.outcome pairEdits).check = .ok (.ok ()) := rfl
  have ha : (Edit.outcome pairEdits).classOf ⟨2⟩ = .ok (some ⟨.iadd, 32, [⟨0⟩, ⟨0⟩]⟩) := rfl
  have hb : (Edit.outcome pairEdits).classOf ⟨3⟩ = .ok (some ⟨.iadd, 32, [⟨0⟩, ⟨0⟩]⟩) := rfl
  have hne : (⟨2⟩ : InstrId) ≠ ⟨3⟩ := by decide
  have hcalm : ∀ v ∈ ([⟨0⟩, ⟨0⟩] : List ValueId), (Edit.outcome pairEdits).dest? ⟨2⟩ ≠ some v ∧
      (Edit.outcome pairEdits).dest? ⟨3⟩ ≠ some v := by decide +kernel
  exact ⟨hr, hcheck, ha, hb,
    (merge?_takesOver hr hcheck (by decide) hne ha hb hcalm).1 (by decide +kernel),
    (merge?_takesOver hr hcheck (by decide) hne ha hb hcalm).2 (by decide +kernel)⟩

end Function

end ShaderSSA
