import ShaderSSA.Proofs.Tracking

/-! Lanes. What moves and vector constructs compute, and how lists of lanes and lanes of values
answer to each other. -/

namespace ShaderSSA

namespace Lanes

/-- Lane `k`, zero past the end. -/
def pick (x : Lanes) (k : Nat) : UInt32 := x[k]?.getD 0

theorem pick_ofList (xs : List UInt32) (k : Nat) :
    (ofList xs).pick k = if k < 4 then xs.getD k 0 else 0 := by
  by_cases hk : k < 4
  · simp [pick, ofList, hk]
  · simp [pick, ofList, hk]

theorem first_eq_pick (x : Lanes) : x.first = x.pick 0 := by
  simp [first, pick, Vector.get]

theorem ext_pick {x y : Lanes} (h : ∀ k < 4, x.pick k = y.pick k) : x = y := by
  apply Vector.ext
  intro k hk
  have hh := h k hk
  simpa [pick, hk] using hh

theorem getElem?_eq_pick {x : Lanes} {k : Nat} (hk : k < 4) : x[k]? = some (x.pick k) := by
  simp [pick, hk]

theorem get_eq_pick (x : Lanes) (k : Fin 4) : x.get k = x.pick k := by
  simp [pick, Vector.get]

end Lanes

theorem mapM_eq_some_map {α β : Type} {g : α → Option β} {k : α → β} {l : List α}
    (h : ∀ a ∈ l, g a = some (k a)) : l.mapM g = some (l.map k) := by
  induction l with
  | nil => rfl
  | cons a l ih =>
    have ha := h a List.mem_cons_self
    have hl := ih fun b hb => h b (List.mem_cons_of_mem a hb)
    simp [List.mapM_cons, ha, hl]

theorem Swizzle.lanes_eq_ok {s : Swizzle} {n : Nat} {l : List Nat} :
    s.lanes n = .ok l ↔ n ≤ 4 ∧ s.toList.take n = l := by
  unfold Swizzle.lanes
  split <;> simp_all

theorem Operand.select_eq_ok {v : ValueId} {lanes : List Nat} (h1 : 1 ≤ lanes.length)
    (h4 : lanes.length ≤ 4) : ∃ o, Operand.select v lanes = .ok o ∧ o.value = v ∧
      o.swizzle.toList.take lanes.length = lanes := by
  cases hl : lanes.getLast? with
  | none =>
    have : lanes = [] := List.getLast?_eq_none_iff.mp hl
    simp [this] at h1
  | some last =>
    refine ⟨⟨v, Vector.ofFn fun k => lanes.getD k last⟩, by simp [Operand.select, hl, h4], rfl, ?_⟩
    apply List.ext_getElem?
    intro k
    by_cases hk : k < lanes.length
    · have hk4 : k < 4 := by omega
      simp [hk, hk4]
    · simp [hk]

theorem AluOp.construct?_cases {op : AluOp} {n : Nat} (h : AluOp.construct? n = some op) :
    n = 2 ∧ op = .vec2 ∨ n = 3 ∧ op = .vec3 ∨ n = 4 ∧ op = .vec4 := by
  unfold AluOp.construct? at h
  split at h <;> simp_all

namespace Env

variable {e : Env} {vars : Variables}

theorem operand_eq_some {n : Nat} {o : Operand} {x : Lanes} (hx : e.values o.value = some x)
    (hn : n ≤ 4) (hl : ∀ k ∈ o.swizzle.toList.take n, k < 4) :
    e.operand n o = some (.ofList ((o.swizzle.toList.take n).map x.pick)) := by
  have hsel : (o.swizzle.lanes n).toOption = some (o.swizzle.toList.take n) :=
    toOption_eq_some.mpr (Swizzle.lanes_eq_ok.mpr ⟨hn, rfl⟩)
  have hmap : (o.swizzle.toList.take n).mapM (fun k => x[k]?) =
      some ((o.swizzle.toList.take n).map x.pick) :=
    mapM_eq_some_map fun k hk => Lanes.getElem?_eq_pick (hl k hk)
  simp [operand, hx, hsel, hmap]

theorem effect_mov [FloatOps] {o : Operand} {x : Lanes} {w : Nat} (hx : e.values o.value = some x)
    (hw : w ≤ 4) (hl : ∀ k ∈ o.swizzle.toList.take w, k < 4) :
    e.effect vars (some ⟨w, 32⟩) (.alu ⟨.mov, [o]⟩) =
      some (.value (.ofList ((o.swizzle.toList.take w).map x.pick))) := by
  have hread : AluOp.mov.readWidth? (some ⟨w, 32⟩) 0 = some w := rfl
  have hop := operand_eq_some hx hw hl
  have heval : AluOp.mov.eval w [.ofList ((o.swizzle.toList.take w).map x.pick)] =
      .ofList ((o.swizzle.toList.take w).map x.pick) := by
    apply Lanes.ext_pick
    intro k hk
    by_cases hkw : k < w
    · simp [AluOp.eval, AluOp.lane, Lanes.pick, hk, hkw, Vector.get]
    · have hlen : ((o.swizzle.toList.take w).map x.pick).length ≤ k := by
        simp
        omega
      have hnone : ((o.swizzle.toList.take w).map x.pick)[k]? = none :=
        List.getElem?_eq_none hlen
      rw [Lanes.pick_ofList, if_pos hk, List.getD_eq_getElem?_getD, hnone]
      simp [AluOp.eval, Lanes.pick, hk, hkw]
  have hsrcs : ([o].zipIdx.mapM fun p =>
      (AluOp.mov.readWidth? (some ⟨w, 32⟩) p.2).bind fun n => e.operand n p.1) =
      some [.ofList ((o.swizzle.toList.take w).map x.pick)] := by
    simp only [List.zipIdx_singleton, List.mapM_cons, List.mapM_nil, hread, Option.bind_some, hop]
    rfl
  have halu : e.alu (some ⟨w, 32⟩) ⟨.mov, [o]⟩ = _ := if_pos rfl
  rw [hsrcs] at halu
  simp only [effect, halu, Option.map_some, Option.elim, heval]

theorem zipIdx_mapM {α β : Type} {l : List α} {g : α × Nat → Option β} {r : List β}
    (hlen : r.length = l.length)
    (h : ∀ (s : Nat) a b, l[s]? = some a → r[s]? = some b → g (a, s) = some b) :
    l.zipIdx.mapM g = some r := by
  have hk : ∀ (n : Nat) (r : List β), r.length = l.length →
      (∀ (s : Nat) a b, l[s]? = some a → r[s]? = some b → g (a, s + n) = some b) →
      (l.zipIdx n).mapM g = some r := by
    clear h hlen
    induction l with
    | nil =>
      intro n r hlen _
      obtain rfl : r = [] := by simpa using hlen
      rfl
    | cons a l ih =>
      intro n r hlen h
      cases r with
      | nil => simp at hlen
      | cons b r =>
        have ha := h 0 a b rfl rfl
        have hl := ih (n + 1) r (by simpa using hlen) fun s a' b' ha' hb' => by
          have := h (s + 1) a' b' (by simpa using ha') (by simpa using hb')
          rwa [show s + (n + 1) = s + 1 + n by omega]
        simp only [Nat.zero_add] at ha
        simp [List.zipIdx_cons, List.mapM_cons, ha, hl]
  exact hk 0 r hlen (by simpa using h)

theorem effect_vec [FloatOps] {op : AluOp} {vs : List ValueId} {xs : List Lanes} {w : Nat}
    (hop : AluOp.construct? vs.length = some op) (hlen : xs.length = vs.length)
    (hx : ∀ (s : Nat) v x, vs[s]? = some v → xs[s]? = some x → e.values v = some x) :
    e.effect vars (some ⟨w, 32⟩) (.alu ⟨op, vs.map (.channel · 0)⟩) =
      some (.value (.ofList (xs.map Lanes.first))) := by
  have hread : ∀ s < vs.length, op.readWidth? (some ⟨w, 32⟩) s = some 1 := by
    intro s hs
    rcases AluOp.construct?_cases hop with ⟨hl, rfl⟩ | ⟨hl, rfl⟩ | ⟨hl, rfl⟩ <;> rw [hl] at hs <;>
      interval_cases s <;> rfl
  have hsrcs : ((vs.map (Operand.channel · 0)).zipIdx.mapM fun p =>
      (op.readWidth? (some ⟨w, 32⟩) p.2).bind fun n => e.operand n p.1) =
      some (xs.map fun x => .ofList [x.first]) := by
    refine zipIdx_mapM (by simp [hlen]) fun s o y ho hy => ?_
    obtain ⟨v, hv, rfl⟩ : ∃ v, vs[s]? = some v ∧ Operand.channel v 0 = o := by
      simpa [Option.map_eq_some_iff] using ho
    obtain ⟨x, hxs, rfl⟩ : ∃ x, xs[s]? = some x ∧ Lanes.ofList [x.first] = y := by
      simpa [Option.map_eq_some_iff] using hy
    obtain ⟨hs, -⟩ := List.getElem?_eq_some_iff.mp hv
    have htake : (Operand.channel v 0).swizzle.toList.take 1 = [0] := rfl
    have hval : e.values (Operand.channel v 0).value = some x := hx s v x hv hxs
    have hsel := operand_eq_some hval (n := 1) (by omega) (by simp [htake])
    simp only [hread s hs, Option.bind_some, hsel, htake, List.map_cons, List.map_nil,
      Lanes.first_eq_pick]
  have heval : ∀ l : List Lanes, op.eval w l = .ofList (l.map Lanes.first) := by
    intro l
    unfold AluOp.construct? at hop
    split at hop <;> cases hop <;> rfl
  have halu : e.alu (some ⟨w, 32⟩) ⟨op, vs.map (.channel · 0)⟩ = _ := if_pos rfl
  rw [hsrcs] at halu
  have hfirst : ∀ y : UInt32, (Lanes.ofList [y]).first = y := fun y => rfl
  simp only [effect, halu, Option.map_some, Option.elim, heval, List.map_map, Function.comp_def,
    hfirst]

theorem fit_component {n : Nat} (h : n < 256) : Checked.fit 8 n = .ok n :=
  Checked.fit_eq_ok.mpr ⟨h, rfl⟩

theorem loaded_eq (table : Channels) (slot : Nat) {first n : Nat} (hn : n ≤ 4)
    (h : first + n ≤ 256) : loaded table slot first n =
      some (.value (.ofList ((List.range n).map fun k => table.read ⟨slot, first + k⟩))) := by
  have hchan : Machine.channels slot first n =
      .ok ((List.range n).map fun k => ⟨slot, first + k⟩) := by
    apply toOption_eq_some.mp
    simp only [Machine.channels, toOption_mapM]
    refine mapM_eq_some_map fun k hk => ?_
    have hlt : k < n := List.mem_range.mp hk
    rw [fit_component (by omega)]
    rfl
  have hmin : min n 4 = n := by omega
  simp only [loaded, Machine.load, hmin, hchan, ok_bind, List.map_map]
  rfl

theorem store_kept {slot first mask k : Nat} (x : Lanes) (t : Channels)
    (hmask : Checked.maskBit mask k = .ok true) (hk : k < 4) (h : first + k < 256) :
    Machine.store slot first mask x t k = .ok (t.write ⟨slot, first + k⟩ (x.pick k)) := by
  simp only [Machine.store, hmask, ok_bind, fit_component h, Lanes.getElem?_eq_pick hk]
  rfl

theorem store_masked {slot first mask k : Nat} (x : Lanes) (t : Channels)
    (hmask : Checked.maskBit mask k = .ok false) : Machine.store slot first mask x t k = .ok t := by
  simp only [Machine.store, hmask, ok_bind]
  rfl

theorem foldlM_store_congr {slot first mask : Nat} {x y : Lanes} {l : List Nat}
    (h : ∀ k ∈ l, k < 4 ∧ y.pick k = x.pick k) (t : Channels) :
    l.foldlM (Machine.store slot first mask y) t =
      l.foldlM (Machine.store slot first mask x) t := by
  induction l generalizing t with
  | nil => rfl
  | cons k l ih =>
    obtain ⟨hk, hpick⟩ := h k List.mem_cons_self
    have hone : Machine.store slot first mask y t k = Machine.store slot first mask x t k := by
      simp only [Machine.store, Lanes.getElem?_eq_pick hk, hpick]
    have hrest := ih fun j hj => h j (List.mem_cons_of_mem k hj)
    simp only [List.foldlM_cons, hone, hrest]

theorem stored_lane {slot c : Nat} {y : Lanes} {e : Env} (h : c < 256) :
    e.stored slot c 1 1 y = some (.outputs (e.io.outputs.write ⟨slot, c⟩ (y.pick 0))) := by
  have hone : Machine.store slot c 1 y e.io.outputs 0 =
      .ok (e.io.outputs.write ⟨slot, c⟩ (y.pick 0)) := store_kept y _ rfl (by omega) h
  simp [stored, List.range_succ, hone, toOption_ok]

end Env

end ShaderSSA
