import ShaderSSA.Proofs.Merging

/-! Functions in which nothing is left to merge. Putting a wide instruction in the place of a pair
makes no two instructions alike that were not, so what is packed stays so. -/

namespace ShaderSSA

theorem ClassKey.turn_inj {key key' : ClassKey} {va vb x : ValueId}
    (hk : ∀ w ∈ key.srcs, w ≠ vb ∧ w ≠ x) (hk' : ∀ w ∈ key'.srcs, w ≠ vb ∧ w ≠ x)
    (h : key.turn [va, vb] x = key'.turn [va, vb] x) : key = key' := by
  have hback : ∀ l : List ValueId, (∀ w ∈ l, w ≠ vb ∧ w ≠ x) →
      (l.map fun w => if w ∈ [va, vb] then x else w).map (fun w => if w = x then va else w) =
        l := by
    intro l hl
    rw [List.map_map]
    refine (List.map_congr_left fun w hw => ?_).trans (List.map_id' l)
    obtain ⟨hb, hx⟩ := hl w hw
    by_cases hwa : w = va <;> simp [hwa, hb, hx]
  have hsrcs : key.srcs = key'.srcs := by
    rw [← hback key.srcs hk, ← hback key'.srcs hk']
    exact congrArg (fun k : ClassKey => k.srcs.map fun w => if w = x then va else w) h
  have hop : key.op = key'.op := by simpa [turn] using congrArg ClassKey.op h
  have hbits : key.bits = key'.bits := by simpa [turn] using congrArg ClassKey.bits h
  cases key
  cases key'
  simp_all

namespace Function

variable {f g : Function} {a b i j p q : InstrId} {key key' : ClassKey} {m : Merged}
  {va vb x : ValueId} {B c : BlockId} {done rest : List InstrId} {limit : Nat}

/-- Of the instructions in `P`, no two of one class fit into one. -/
def PackedOn (f : Function) (limit : Nat) (P : InstrId → Prop) : Prop :=
  ∀ p q key, P p → P q → f.InClass p key → f.InClass q key → f.Precedes p q →
    limit < f.width p + f.width q

/-- Two instructions that come to be of one class were so before, if neither has read what the
second of the pair defines. -/
theorem MergesTo.packedOn [FloatOps] {P P' : InstrId → Prop} (h : f.MergesTo a b key m va vb x g)
    (hf : f.Ssa) (ha : f.InClass a key) (hpacked : f.PackedOn limit P)
    (hP : ∀ j key', g.InClass j key' → P' j → P (m.origin a j))
    (hcalm : ∀ j key', P j → f.InClass j key' → vb ∉ key'.srcs) : g.PackedOn limit P' := by
  have hknown : ∀ {j key'}, P j → f.InClass j key' → ∀ w ∈ key'.srcs, w ≠ vb ∧ w ≠ x := by
    intro j key' hPj hj w hw
    refine ⟨fun he => hcalm j key' hPj hj (he ▸ hw), fun he => ?_⟩
    obtain ⟨srcs, v, width, hm⟩ := hj
    have hsrcs : f.srcs? j = some key'.srcs := by
      rw [srcs?_eq_map, hm.body, ← hm.values]
      rfl
    have hv := hf.tidy.linked.sourced.known j _ hsrcs w hw
    rw [he, h.unknown] at hv
    cases hv
  have horigin : ∀ {j key'}, g.InClass j key' → ∃ key₀, f.InClass (m.origin a j) key₀ ∧
      key' = key₀.turn [va, vb] x ∧ f.width (m.origin a j) ≤ g.width j := by
    intro j key' hj
    rcases h.inClass_cases hj with ⟨rfl, rfl⟩ | ⟨hjm, -, -, key₀, hkey₀, hturn, hwidth⟩
    · refine ⟨key, by rwa [Merged.origin, if_pos rfl], rfl, ?_⟩
      rw [Merged.origin, if_pos rfl, h.width]
      exact Nat.le_add_right _ _
    · rw [Merged.origin, if_neg hjm]
      exact ⟨key₀, hkey₀, hturn, hwidth.ge⟩
  intro p q key' hPp hPq hp hq hpq
  obtain ⟨key₁, hkey₁, hturn₁, hwp⟩ := horigin hp
  obtain ⟨key₂, hkey₂, hturn₂, hwq⟩ := horigin hq
  have hPp' := hP p key' hp hPp
  have hPq' := hP q key' hq hPq
  obtain rfl : key₁ = key₂ :=
    ClassKey.turn_inj (hknown hPp' hkey₁) (hknown hPq' hkey₂) (hturn₁.symm.trans hturn₂)
  have hlt := hpacked _ _ key₁ hPp' hPq' hkey₁ hkey₂
    (h.precedes hf.tidy.linked.placed ha hp hq hpq)
  omega

end Function

end ShaderSSA
