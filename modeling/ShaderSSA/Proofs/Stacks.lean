import ShaderSSA.Merge.Walk
import ShaderSSA.Proofs.Success
import Mathlib.Data.List.Perm.Basic

/-! The stacks of a walk. Groups and classes describe each other: an instruction is recorded with
a class exactly if it is on the stack of that class, where it stands once. -/

namespace ShaderSSA

structure Stacks (groups : List (ClassKey × List Entry)) (classes : List (InstrId × ClassKey)) :
    Prop where
  nonempty : ∀ key stack, Assoc.get? groups key = some stack → stack ≠ []
  nodup : ∀ key stack, Assoc.get? groups key = some stack → (stack.map (·.instr)).Nodup
  mem_iff : ∀ i key, Assoc.get? classes i = some key ↔
    ∃ stack, Assoc.get? groups key = some stack ∧ i ∈ stack.map (·.instr)

namespace Stacks

variable {groups : List (ClassKey × List Entry)} {classes classes' : List (InstrId × ClassKey)}
  {key : ClassKey} {i : InstrId} {stack : List Entry} {e : Entry} {w : Walk}

theorem empty : Stacks [] [] := ⟨by simp [Assoc.get?], by simp [Assoc.get?], by simp [Assoc.get?]⟩

theorem set (h : Stacks groups classes) (hne : stack ≠ []) (hnd : (stack.map (·.instr)).Nodup)
    (hc : ∀ j k, Assoc.get? classes' j = some k ↔
      if k = key then j ∈ stack.map (·.instr) else Assoc.get? classes j = some k) :
    Stacks (Assoc.set key stack groups) classes' := by
  refine ⟨fun k s hs => ?_, fun k s hs => ?_, fun j k => ?_⟩
  · rw [Assoc.get?_set] at hs
    split at hs
    · exact Option.some.inj hs ▸ hne
    · exact h.nonempty k s hs
  · rw [Assoc.get?_set] at hs
    split at hs
    · exact Option.some.inj hs ▸ hnd
    · exact h.nodup k s hs
  · rw [hc, Assoc.get?_set]
    by_cases hk : k = key
    · simp [hk]
    · simp only [hk, if_false]
      exact h.mem_iff j k

theorem erase (h : Stacks groups classes)
    (hc : ∀ j k, Assoc.get? classes' j = some k ↔ k ≠ key ∧ Assoc.get? classes j = some k) :
    Stacks (Assoc.erase key groups) classes' := by
  refine ⟨fun k s hs => ?_, fun k s hs => ?_, fun j k => ?_⟩
  · rw [Assoc.get?_erase] at hs
    split at hs
    · cases hs
    · exact h.nonempty k s hs
  · rw [Assoc.get?_erase] at hs
    split at hs
    · cases hs
    · exact h.nodup k s hs
  · rw [hc, Assoc.get?_erase]
    by_cases hk : k = key
    · simp [hk]
    · simp only [hk, if_false, ne_eq, not_false_eq_true, true_and]
      exact h.mem_iff j k

theorem mem_stackOf (h : Stacks w.groups w.classes) (j : InstrId) (key : ClassKey) :
    Assoc.get? w.classes j = some key ↔ j ∈ (w.stackOf key).map (·.instr) := by
  rw [h.mem_iff, Walk.stackOf]
  cases hs : Assoc.get? w.groups key with
  | none => simp
  | some stack => simp

theorem nodup_stackOf (h : Stacks w.groups w.classes) (key : ClassKey) :
    ((w.stackOf key).map (·.instr)).Nodup := by
  rw [Walk.stackOf]
  cases hs : Assoc.get? w.groups key with
  | none => simp
  | some stack => exact h.nodup key stack hs

theorem insert (h : Stacks w.groups w.classes) (hi : Assoc.get? w.classes e.instr = none)
    (hp : stack.Perm (e :: w.stackOf key)) :
    Stacks (Assoc.set key stack w.groups) (Assoc.set e.instr key w.classes) := by
  have hmap : (stack.map (·.instr)).Perm (e.instr :: (w.stackOf key).map (·.instr)) := by
    simpa using hp.map (·.instr)
  have hnot : e.instr ∉ (w.stackOf key).map (·.instr) := by
    rw [← h.mem_stackOf, hi]
    simp
  refine h.set ?_ ?_ fun j k => ?_
  · rintro rfl
    exact absurd hp.length_eq (by simp)
  · rw [hmap.nodup_iff, List.nodup_cons]
    exact ⟨hnot, h.nodup_stackOf key⟩
  · rw [Assoc.get?_set, hmap.mem_iff, List.mem_cons]
    by_cases hj : j = e.instr
    · by_cases hk : k = key
      · simp [hj, hk]
      · simp [hj, hk, hi, Ne.symm hk]
    · by_cases hk : k = key
      · simp [hj, hk, h.mem_stackOf]
      · simp [hj, hk]

theorem replace {above below : List Entry} {e' : Entry} (h : Stacks w.groups w.classes)
    (hs : w.stackOf key = above ++ e :: below) (hi : Assoc.get? w.classes e'.instr = none) :
    Stacks (Assoc.set key (above ++ e' :: below) w.groups)
      (Assoc.set e'.instr key (Assoc.erase e.instr w.classes)) := by
  have hmem : ∀ j, Assoc.get? w.classes j = some key ↔
      j ∈ above.map (·.instr) ∨ j = e.instr ∨ j ∈ below.map (·.instr) := by
    intro j
    rw [h.mem_stackOf, hs]
    simp
  have hnd := h.nodup_stackOf key
  rw [hs, List.map_append, List.map_cons, List.nodup_append, List.nodup_cons] at hnd
  obtain ⟨habove, ⟨hbelow, hndb⟩, hapart⟩ := hnd
  have hnew : e'.instr ∉ above.map (·.instr) ∧ e'.instr ∉ below.map (·.instr) := by
    have hnot := (hmem e'.instr).not.mp (by simp [hi])
    exact ⟨fun hm => hnot (.inl hm), fun hm => hnot (.inr (.inr hm))⟩
  have hold : e.instr ∉ above.map (·.instr) := fun hm => hapart _ hm e.instr (by simp) rfl
  refine h.set (by simp) ?_ fun j k => ?_
  · rw [List.map_append, List.map_cons, List.nodup_append, List.nodup_cons]
    refine ⟨habove, ⟨hnew.2, hndb⟩, fun x hx y hy => ?_⟩
    rcases List.mem_cons.mp hy with rfl | hy
    · rintro rfl
      exact hnew.1 hx
    · exact hapart x hx y (by simp [hy])
  · rw [Assoc.get?_set, Assoc.get?_erase, List.map_append, List.map_cons, List.mem_append,
      List.mem_cons]
    by_cases hj : j = e'.instr
    · by_cases hk : k = key
      · simp [hj, hk]
      · simp [hj, hk, hi, Ne.symm hk]
    · have hjk : Assoc.get? w.classes e.instr = some key := (hmem e.instr).mpr (by simp)
      by_cases hje : j = e.instr
      · by_cases hk : k = key
        · simp only [hj, if_false, hk, if_true, false_or]
          rw [hje]
          simp [hold, hbelow]
        · simp [hje, hk, hjk, Ne.symm hk]
      · by_cases hk : k = key
        · simp only [hj, hje, if_false, hk, if_true, false_or, hmem]
        · simp [hj, hje, hk]

theorem find_entry (hi : i ∈ stack.map (·.instr)) :
    ∃ e, stack.find? (·.instr == i) = some e ∧ e ∈ stack ∧ e.instr = i := by
  cases hf : stack.find? (·.instr == i) with
  | none =>
    obtain ⟨e, he, rfl⟩ := List.mem_map.mp hi
    simpa using List.find?_eq_none.mp hf e he
  | some e => exact ⟨e, rfl, List.mem_of_find?_eq_some hf, by simpa using List.find?_some hf⟩

theorem detach (h : Stacks w.groups w.classes) (hi : Assoc.get? w.classes i = some key) :
    ∃ e groups, w.detach key i =
        .ok (e, { w with groups := groups, classes := Assoc.erase i w.classes }) ∧
      e.instr = i ∧ Stacks groups (Assoc.erase i w.classes) := by
  obtain ⟨stack, hs, him⟩ := (h.mem_iff i key).mp hi
  obtain ⟨e, hfind, he, rfl⟩ := find_entry him
  have hnd := h.nodup key stack hs
  have hmem : ∀ j, j ∈ (stack.erase e).map (·.instr) ↔
      j ≠ e.instr ∧ Assoc.get? w.classes j = some key := by
    intro j
    have hinj := List.inj_on_of_nodup_map hnd
    simp only [List.mem_map, (List.Nodup.of_map _ hnd).mem_erase_iff, h.mem_iff, hs,
      Option.some.injEq, exists_eq_left']
    constructor
    · rintro ⟨x, ⟨hxe, hx⟩, rfl⟩
      exact ⟨fun heq => hxe (hinj hx he heq), x, hx, rfl⟩
    · rintro ⟨hj, x, hx, rfl⟩
      exact ⟨x, ⟨fun heq => hj (heq ▸ rfl), hx⟩, rfl⟩
  have hget : ∀ j k, Assoc.get? (Assoc.erase e.instr w.classes) j = some k ↔
      j ≠ e.instr ∧ Assoc.get? w.classes j = some k := by
    intro j k
    rw [Assoc.get?_erase]
    by_cases hj : j = e.instr <;> simp [hj]
  refine ⟨e, if (stack.erase e).isEmpty then Assoc.erase key w.groups
    else Assoc.set key (stack.erase e) w.groups, ?_, rfl, ?_⟩
  · simp only [Walk.detach, hs, Checked.orElse, hfind, ok_bind]
    rfl
  · split
    · rename_i hempty
      refine h.erase fun j k => ?_
      rw [hget]
      constructor
      · rintro ⟨hj, hk⟩
        refine ⟨?_, hk⟩
        rintro rfl
        have hnot := (hmem j).mpr ⟨hj, hk⟩
        simp [List.isEmpty_iff.mp hempty] at hnot
      · rintro ⟨hkey, hk⟩
        refine ⟨?_, hk⟩
        rintro rfl
        exact hkey (by simpa [hi] using hk.symm)
    · rename_i hsome
      refine h.set (by simpa using hsome) ((hnd.sublist (List.erase_sublist.map _))) fun j k => ?_
      rw [hget]
      by_cases hk : k = key
      · simp [hk, hmem]
      · simp only [hk, if_false, and_iff_right_iff_imp]
        rintro hjk rfl
        exact hk (by simpa [hi] using hjk.symm)

theorem eq_nil (h : Stacks groups classes) (hnone : ∀ i, Assoc.get? classes i = none) :
    groups = [] ∧ classes = [] := by
  refine ⟨?_, ?_⟩
  · cases groups with
    | nil => rfl
    | cons p rest =>
      obtain ⟨k, s⟩ := p
      have hs : Assoc.get? ((k, s) :: rest) k = some s := by simp [Assoc.get?]
      obtain ⟨x, hx⟩ := List.exists_mem_of_ne_nil s (h.nonempty k s hs)
      have hx' := (h.mem_iff x.instr k).mpr ⟨s, hs, List.mem_map.mpr ⟨x, hx, rfl⟩⟩
      simp [hnone] at hx'
  · cases classes with
    | nil => rfl
    | cons p rest =>
      obtain ⟨j, k⟩ := p
      have hj := hnone j
      simp [Assoc.get?] at hj

end Stacks

theorem insertBySeq_cons (e x : Entry) (stack : List Entry) : insertBySeq e (x :: stack) =
    if e.seq ≤ x.seq then x :: insertBySeq e stack else e :: x :: stack := by
  by_cases h : e.seq ≤ x.seq <;> simp [insertBySeq, h]

theorem insertBySeq_perm (e : Entry) (stack : List Entry) :
    (insertBySeq e stack).Perm (e :: stack) := by
  induction stack with
  | nil => exact .refl _
  | cons x stack ih =>
    rw [insertBySeq_cons]
    split
    · exact (ih.cons x).trans (.swap e x stack)
    · exact .refl _

theorem insertBySeq_latest {e : Entry} {stack : List Entry} (h : ∀ x ∈ stack, x.seq < e.seq) :
    insertBySeq e stack = e :: stack := by
  cases stack with
  | nil => rfl
  | cons x stack =>
    have hx := h x (by simp)
    rw [insertBySeq_cons, if_neg (by omega)]

theorem insertBySeq_sorted {e : Entry} {stack : List Entry}
    (h : stack.Pairwise fun x y => y.seq < x.seq) (hne : ∀ x ∈ stack, x.seq ≠ e.seq) :
    (insertBySeq e stack).Pairwise fun x y => y.seq < x.seq := by
  induction stack with
  | nil => simp [insertBySeq]
  | cons x stack ih =>
    obtain ⟨hx, hstack⟩ := List.pairwise_cons.mp h
    rw [List.forall_mem_cons] at hne
    rw [insertBySeq_cons]
    split
    · rename_i hle
      refine List.pairwise_cons.mpr ⟨fun y hy => ?_, ih hstack hne.2⟩
      rcases List.mem_cons.mp ((insertBySeq_perm e stack).mem_iff.mp hy) with rfl | hy
      · have hxy := hne.1
        omega
      · exact hx y hy
    · rename_i hlt
      refine List.pairwise_cons.mpr ⟨fun y hy => ?_, h⟩
      rcases List.mem_cons.mp hy with rfl | hy
      · omega
      · have hy' := hx y hy
        omega

namespace Walk

variable {w w' : Walk} {key : ClassKey} {stack : List Entry} {i : InstrId} {e : Entry}

theorem stackOf_set (h : w'.groups = Assoc.set key stack w.groups) (k : ClassKey) :
    w'.stackOf k = if k = key then stack else w.stackOf k := by
  rw [stackOf, h, Assoc.get?_set]
  split <;> rfl

theorem stackOf_detach (h : w.detach key i = .ok (e, w')) :
    e ∈ w.stackOf key ∧ (∀ k, w'.stackOf k = if k = key then (w.stackOf key).erase e
      else w.stackOf k) ∧ w'.nextSeq = w.nextSeq := by
  obtain ⟨stack, hs, h⟩ := bind_eq_ok.mp h
  obtain ⟨x, hx, h⟩ := bind_eq_ok.mp h
  have hget := Checked.orElse_eq_ok.mp hs
  have hfind := Checked.orElse_eq_ok.mp hx
  obtain ⟨rfl, rfl⟩ := Prod.mk.inj (Except.ok.inj h)
  have hstack : w.stackOf key = stack := by simp [stackOf, hget]
  refine ⟨hstack ▸ List.mem_of_find?_eq_some hfind, fun k => ?_, rfl⟩
  simp only [stackOf, hget]
  split
  · rename_i hempty
    rw [Assoc.get?_erase]
    split
    · simp [List.isEmpty_iff.mp hempty]
    · rfl
  · rw [Assoc.get?_set]
    split <;> rfl

/-- The same code, and nothing more that was merged. -/
structure Idles (w w' : Walk) : Prop where
  func : w'.func = w.func
  merged : w'.stats.merged = w.stats.merged
  copies : w'.stats.copies = w.stats.copies
  progress : w'.progress = w.progress

theorem Idles.refl (w : Walk) : w.Idles w := ⟨rfl, rfl, rfl, rfl⟩

theorem Idles.trans {w'' : Walk} (h : w.Idles w') (h' : w'.Idles w'') : w.Idles w'' :=
  ⟨h'.func.trans h.func, h'.merged.trans h.merged, h'.copies.trans h.copies,
    h'.progress.trans h.progress⟩

theorem idles_of_detach (h : w.detach key i = .ok (e, w')) : w.Idles w' := by
  simp only [detach, bind_eq_ok] at h
  obtain ⟨stack, -, e', -, h⟩ := h
  cases h
  exact ⟨rfl, rfl, rfl, rfl⟩

theorem idles_of_reclassify (h : w.reclassify i = .ok w') : w.Idles w' := by
  unfold reclassify at h
  split at h
  · cases h
    exact .refl w
  · simp only [bind_eq_ok] at h
    obtain ⟨⟨e, w₁⟩, hd, o, -, key, -, h⟩ := h
    cases h
    have hi := idles_of_detach hd
    exact ⟨hi.func, hi.merged, hi.copies, hi.progress⟩

theorem idles_of_drop (h : w.drop i = .ok w') : w.Idles w' := by
  unfold drop at h
  split at h
  · cases h
    exact .refl w
  · obtain ⟨⟨e, w₁⟩, hd, h⟩ := bind_eq_ok.mp h
    cases h
    exact idles_of_detach hd

theorem idles_of_foldlM {step : Walk → InstrId → Checked Walk}
    (hstep : ∀ w i w', step w i = .ok w' → w.Idles w') {l : List InstrId}
    (h : l.foldlM step w = .ok w') : w.Idles w' := by
  induction l generalizing w with
  | nil =>
    cases h
    exact .refl _
  | cons i l ih =>
    obtain ⟨w₁, h₁, hrest⟩ := bind_eq_ok.mp h
    exact (hstep w i w₁ h₁).trans (ih hrest)

end Walk

end ShaderSSA
