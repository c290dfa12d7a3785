import Mathlib
import ShaderSSA.BitSet

/-! What a set of bits stands for. Read as a finite set of numbers, it changes with each update as
the set does, whatever words are there or have to be added, so a history of updates tells its
members. -/

namespace ShaderSSA.BitSet

variable {s : BitSet} {b : Nat}

theorem toNat_mask (b : Nat) : (mask b).toNat = 2 ^ (b % 64) := by
  have hlt : b % 64 < 64 := Nat.mod_lt _ (by omega)
  have hpow : 2 ^ (b % 64) < 2 ^ 64 := Nat.pow_lt_pow_right (by omega) hlt
  simp only [mask, UInt64.toNat_shiftLeft, UInt64.toNat_one, UInt64.toNat_ofNat']
  rw [Nat.mod_eq_of_lt (by omega : b % 64 < 2 ^ 64), Nat.mod_eq_of_lt hlt, Nat.one_shiftLeft,
    Nat.mod_eq_of_lt hpow]

theorem testBit_mask (b k : Nat) : (mask b).toNat.testBit k = decide (b % 64 = k) := by
  rw [toNat_mask, Nat.testBit_two_pow]

theorem testBit_complement (w : UInt64) {k : Nat} (hk : k < 64) :
    (~~~ w).toNat.testBit k = !w.toNat.testBit k := by
  have hbits : (~~~ w.toBitVec).getLsbD k = !w.toBitVec.getLsbD k := by simp [hk]
  exact hbits

theorem and_mask (w : UInt64) (b : Nat) : (w &&& mask b != 0) = w.toNat.testBit (b % 64) := by
  have hzero : (w &&& mask b = 0) ↔ w.toNat.testBit (b % 64) = false := by
    rw [← UInt64.toNat_inj, UInt64.toNat_and, toNat_mask, Nat.and_two_pow]
    cases w.toNat.testBit (b % 64) <;> simp
  cases hb : w.toNat.testBit (b % 64) with
  | false => simp [hzero.mpr hb]
  | true => simpa using fun h => by simp [hzero.mp h] at hb

theorem contains_eq (s : BitSet) (b : Nat) :
    s.contains b = s.words[b / 64]?.any (·.toNat.testBit (b % 64)) := by
  unfold contains
  cases s.words[b / 64]? with
  | none => rfl
  | some w => exact and_mask w b

theorem contains_reserve (s : BitSet) (b c : Nat) : (s.reserve b).contains c = s.contains c := by
  simp only [contains_eq, reserve, Array.getElem?_append, Array.getElem?_replicate]
  by_cases hc : c / 64 < s.words.size
  · simp [hc]
  · have hnone : s.words[c / 64]? = none := Array.getElem?_eq_none (by omega)
    simp only [hc, if_false, hnone]
    by_cases hb : c / 64 - s.words.size < b / 64 + 1 - s.words.size <;> simp [hb]

theorem contains_insert (s : BitSet) (b c : Nat) :
    (s.insert b).contains c = (decide (b = c) || s.contains c) := by
  rw [← contains_reserve s b c]
  have hsize : b / 64 < (s.reserve b).words.size := by
    simp [reserve]
    omega
  simp only [contains_eq, insert, Array.getElem?_modify]
  by_cases hw : b / 64 = c / 64
  · have hget : (s.reserve b).words[c / 64]? = some (s.reserve b).words[b / 64] := by
      rw [← hw, Array.getElem?_eq_getElem hsize]
    have hbc : b % 64 = c % 64 ↔ b = c := by omega
    simp [hw, hget, UInt64.toNat_or, Nat.testBit_or, testBit_mask, hbc, Bool.or_comm]
  · have hbc : b ≠ c := fun h => hw (by rw [h])
    simp [hw, hbc]

theorem contains_erase (s : BitSet) (b c : Nat) :
    (s.erase b).contains c = (decide (b ≠ c) && s.contains c) := by
  simp only [contains_eq, erase, Array.getElem?_modify]
  by_cases hw : b / 64 = c / 64
  · have hbc : b % 64 = c % 64 ↔ b = c := by omega
    have hlt : c % 64 < 64 := Nat.mod_lt _ (by omega)
    cases s.words[c / 64]? with
    | none => simp
    | some w =>
      simp only [hw, if_true, Option.map_some, Option.any_some, UInt64.toNat_and, Nat.testBit_and,
        testBit_complement _ hlt, testBit_mask, hbc, decide_not, Bool.and_comm]
  · have hbc : b ≠ c := fun h => hw (by rw [h])
    simp [hw, hbc]

theorem contains_ofCapacity (n b : Nat) : (ofCapacity n).contains b = false := by
  simp only [contains_eq, ofCapacity, Array.getElem?_replicate]
  by_cases hb : b / 64 < (n + 63) / 64 <;> simp [hb]

theorem erase_of_size_le (h : s.words.size ≤ b / 64) : s.erase b = s := by
  have hmodify : s.words.modify (b / 64) (· &&& ~~~ mask b) = s.words := by
    refine Array.ext_getElem? fun k => ?_
    rw [Array.getElem?_modify]
    split
    · rename_i hk
      rw [← hk, Array.getElem?_eq_none h]
      rfl
    · rfl
  rw [erase, hmodify]

/-- The numbers that are in the set. -/
def toFinset (s : BitSet) : Finset Nat := {b ∈ Finset.range (64 * s.words.size) | s.contains b}

theorem mem_toFinset : b ∈ s.toFinset ↔ s.contains b = true := by
  simp only [toFinset, Finset.mem_filter, Finset.mem_range, and_iff_right_iff_imp]
  intro h
  by_contra hb
  have hnone : s.words[b / 64]? = none := Array.getElem?_eq_none (by omega)
  simp [contains_eq, hnone] at h

/-- The bits that are set, word after word, are the numbers that pass the test. -/
theorem foldr_popCount (ws : List UInt64) :
    ws.foldr (fun w n => popCount w + n) 0 =
      Nat.count (fun b => ws[b / 64]?.any (·.toNat.testBit (b % 64))) (64 * ws.length) := by
  induction ws with
  | nil => simp
  | cons w ws ih =>
    have hword : popCount w =
        Nat.count (fun b => (w :: ws)[b / 64]?.any (·.toNat.testBit (b % 64))) 64 := by
      refine List.countP_congr fun b hb => ?_
      have hlt : b < 64 := List.mem_range.mp hb
      simp [Nat.div_eq_of_lt hlt, Nat.mod_eq_of_lt hlt]
    have hrest : ∀ b, (w :: ws)[(64 + b) / 64]? = ws[b / 64]? := by
      intro b
      rw [Nat.add_div_left b (by omega), List.getElem?_cons_succ]
    rw [List.foldr_cons, ih, List.length_cons, Nat.mul_succ, Nat.add_comm (64 * _), Nat.count_add,
      hword]
    simp only [hrest, Nat.add_mod_left]

theorem count_eq_card (s : BitSet) : s.count = s.toFinset.card := by
  rw [count, foldr_popCount, Nat.count_eq_card_filter_range, toFinset]
  simp [contains_eq]

/-- What can be done to a set. -/
inductive Update where
  | insert (b : Nat)
  | erase (b : Nat)
  deriving DecidableEq

namespace Update

def apply (s : BitSet) : Update → BitSet
  | insert b => (s.containsThenInsert b).2
  | erase b => s.erase b

/-- The updates put `b` in and do not take it out again. -/
def Holds (us : List Update) (b : Nat) : Prop :=
  ∃ earlier later, us = earlier ++ insert b :: later ∧ erase b ∉ later

theorem not_holds_nil (b : Nat) : ¬ Holds [] b := by
  rintro ⟨earlier, later, h, -⟩
  simp at h

theorem holds_concat (us : List Update) (u : Update) (b : Nat) :
    Holds (us ++ [u]) b ↔ u = insert b ∨ u ≠ erase b ∧ Holds us b := by
  constructor
  · rintro ⟨earlier, later, h, hnot⟩
    rcases List.eq_nil_or_concat later with rfl | ⟨later, x, rfl⟩
    · exact .inl (by simpa using (List.append_inj' h rfl).2)
    · have hsplit : us ++ [u] = (earlier ++ insert b :: later) ++ [x] := by simpa using h
      obtain ⟨rfl, hx⟩ := List.append_inj' hsplit rfl
      obtain rfl : u = x := by simpa using hx
      have hne : u ≠ erase b ∧ erase b ∉ later := by simpa [eq_comm, and_comm] using hnot
      exact .inr ⟨hne.1, earlier, later, rfl, hne.2⟩
  · rintro (rfl | ⟨hne, earlier, later, rfl, hnot⟩)
    · exact ⟨us, [], rfl, by simp⟩
    · exact ⟨earlier, later ++ [u], by simp, by simp [hnot, hne.symm]⟩

end Update

def updated (s : BitSet) (us : List Update) : BitSet := us.foldl Update.apply s

theorem contains_apply (s : BitSet) (u : Update) (b : Nat) :
    (u.apply s).contains b = true ↔ u = .insert b ∨ u ≠ .erase b ∧ s.contains b = true := by
  cases u with
  | insert c => simp [Update.apply, containsThenInsert, contains_insert]
  | erase c => simp [Update.apply, contains_erase]

theorem contains_updated (hs : ∀ b, s.contains b = false) (us : List Update) (b : Nat) :
    (s.updated us).contains b = true ↔ Update.Holds us b := by
  induction us using List.reverseRecOn with
  | nil => simp [updated, hs, Update.not_holds_nil]
  | append_singleton us u ih =>
    rw [updated, List.foldl_concat, ← updated, contains_apply, Update.holds_concat, ih]

theorem contains_of_starts (hs : s = empty ∨ ∃ n, s = ofCapacity n) (b : Nat) :
    s.contains b = false := by
  rcases hs with rfl | ⟨n, rfl⟩
  · simp [contains_eq, empty]
  · exact contains_ofCapacity n b

/-- Whatever is done to a set that starts empty, it contains what was inserted and not erased since,
each insertion has found its member missing exactly when it was, the count is the number of members,
and nothing changes when a number past the last word is erased. -/
theorem updated_refines_finset (hs : s = empty ∨ ∃ n, s = ofCapacity n) (us : List Update) :
    (∀ b, (s.updated us).contains b = true ↔ Update.Holds us b) ∧
    (∀ earlier b later, us = earlier ++ .insert b :: later →
      (((s.updated earlier).containsThenInsert b).1 = false ↔ ¬ Update.Holds earlier b)) ∧
    (∃ members : Finset Nat, (∀ b, b ∈ members ↔ Update.Holds us b) ∧
      (s.updated us).count = members.card) ∧
    ∀ b, (s.updated us).words.size ≤ b / 64 → (s.updated us).erase b = s.updated us := by
  have hstart := contains_of_starts hs
  refine ⟨contains_updated hstart us, fun earlier b later _ => ?_,
    ⟨(s.updated us).toFinset, fun b => ?_, count_eq_card _⟩, fun b hb => erase_of_size_le hb⟩
  · rw [← contains_updated hstart earlier b, containsThenInsert, contains_reserve,
      Bool.not_eq_true]
  · rw [mem_toFinset, contains_updated hstart us b]

/-- Updates on both sides of a border between words, with a gap and past the end. -/
def acrossWords : List Update :=
  [.insert 63, .insert 64, .insert 63, .erase 1000, .insert 300, .erase 63, .erase 64, .insert 64]

theorem acrossWords_refines_finset :
    (ofCapacity 8 = empty ∨ ∃ n, ofCapacity 8 = ofCapacity n) ∧
    ((ofCapacity 8).updated acrossWords).words.size = 5 ∧
    ((ofCapacity 8).updated acrossWords).count = 2 ∧
    Update.Holds acrossWords 64 ∧ ¬ Update.Holds acrossWords 63 ∧
    ((ofCapacity 8).updated acrossWords).erase 320 = (ofCapacity 8).updated acrossWords := by
  have hs : ofCapacity 8 = empty ∨ ∃ n, ofCapacity 8 = ofCapacity n := .inr ⟨8, rfl⟩
  obtain ⟨hmem, -, -, hbeyond⟩ := updated_refines_finset hs acrossWords
  refine ⟨hs, by decide, by decide, (hmem 64).mp (by decide), ?_, hbeyond 320 (by decide)⟩
  rw [← hmem 63]
  decide

end ShaderSSA.BitSet
