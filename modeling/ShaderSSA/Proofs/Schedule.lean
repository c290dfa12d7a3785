import ShaderSSA.Proofs.Pipelines

/-! The record of a run. Whatever the passes do, they run in the order of the schedule, each on its
own state and on the shader that the one before it left, until the rounds come to an end or a
defect is found. -/

namespace ShaderSSA

/-- When a pass runs: the round of a phase, and its place among those that are registered. -/
structure Turn where
  phase : Phase
  round : Nat
  index : Nat

/-- A run of a pass, with what it said about changes and the shader that it left. -/
structure PassRun where
  turn : Turn
  changed : Bool
  left : Shader

/-- The passes of a phase, in the order in which they were registered from the `n`-th on. -/
def Turn.ofRound (phases : List Phase) (n : Nat) (phase : Phase) (round : Nat) : List Turn :=
  (phases.zipIdx n).filterMap fun p => if p.1 = phase then some ⟨phase, round, p.2⟩ else none

theorem Turn.of_mem_ofRound {phases : List Phase} {n round : Nat} {phase : Phase} {p : Turn}
    (h : p ∈ ofRound phases n phase round) : p.phase = phase ∧ p.round = round := by
  obtain ⟨q, -, hq⟩ := List.mem_filterMap.mp h
  split at hq
  · cases hq
    exact ⟨rfl, rfl⟩
  · cases hq

theorem Turn.ofRound_cons (p : Phase) (phases : List Phase) (n : Nat) (phase : Phase)
    (round : Nat) : ofRound (p :: phases) n phase round =
      if p = phase then ⟨phase, round, n⟩ :: ofRound phases (n + 1) phase round
      else ofRound phases (n + 1) phase round := by
  by_cases h : p = phase <;> simp [ofRound, h]

/-- What is left of a shader. -/
def leftBy (s : Shader) (l : List PassRun) : Shader := (l.getLast?.map (·.left)).getD s

theorem leftBy_append (s : Shader) (l m : List PassRun) :
    leftBy s (l ++ m) = leftBy (leftBy s l) m := by
  rw [leftBy, List.getLast?_append, leftBy]
  cases m.getLast? <;> simp [leftBy]

section

variable {σ : Type} {ps qs rs : List (Registered σ)} {s : Shader} {l m : List PassRun}

/-- Each pass runs on the state that it was left in and on the shader that the one before left. -/
inductive Executes : List (Registered σ) → Shader → List PassRun → List (Registered σ) → Prop
  | nil {ps : List (Registered σ)} {s : Shader} : Executes ps s [] ps
  | cons {ps qs : List (Registered σ)} {s : Shader} {e : PassRun} {l : List PassRun}
      {r : Registered σ} {state : σ} : ps[e.turn.index]? = some r → r.phase = e.turn.phase →
      r.pass.run r.state s = .ok (e.changed, state, e.left) →
      Executes (ps.set e.turn.index (r.ran e.changed state)) e.left l qs →
      Executes ps s (e :: l) qs

theorem Executes.append (h : Executes ps s l qs) (h' : Executes qs (leftBy s l) m rs) :
    Executes ps s (l ++ m) rs := by
  induction h with
  | nil => exact h'
  | @cons ps qs s e l r state hr hphase hrun _ ih =>
    refine .cons hr hphase hrun (ih ?_)
    rwa [← List.singleton_append, leftBy_append] at h'

theorem Executes.kinds (h : Executes ps s l qs) :
    qs.map Registered.kind = ps.map Registered.kind := by
  induction h with
  | nil => rfl
  | @cons ps qs s e l r state hr _ _ _ ih =>
    rw [ih, List.map_set]
    refine List.ext_getElem? fun i => ?_
    by_cases hi : e.turn.index = i
    · have hlt := (List.getElem?_eq_some_iff.mp hr).1
      rw [← hi, List.getElem?_set_self (by rwa [List.length_map]), List.getElem?_map, hr]
      rfl
    · rw [List.getElem?_set_ne hi]

theorem Executes.phases (h : Executes ps s l qs) : qs.map (·.phase) = ps.map (·.phase) := by
  have hkinds := congrArg (List.map Prod.snd) h.kinds
  simpa [Registered.kind, Function.comp_def] using hkinds

theorem Executes.entry (h : Executes ps s l qs) {i : Nat} {r' : Registered σ}
    (hr : qs[i]? = some r') : ∃ r, ps[i]? = some r ∧ r.pass = r'.pass := by
  have hkind : (ps.map Registered.kind)[i]? = some r'.kind := by
    rw [← h.kinds, List.getElem?_map, hr]
    rfl
  rw [List.getElem?_map] at hkind
  obtain ⟨r, hr, hk⟩ := Option.map_eq_some_iff.mp hkind
  exact ⟨r, hr, congrArg Prod.fst hk⟩

/-- Every run of a pass is counted at its entry. -/
theorem Executes.counts (h : Executes ps s l qs) {i : Nat} {r : Registered σ}
    (hr : ps[i]? = some r) : ∃ r', qs[i]? = some r' ∧ r'.kind = r.kind ∧
      r'.runs = r.runs + l.countP (·.turn.index = i) ∧
      r'.changes = r.changes + l.countP (fun e => e.turn.index = i ∧ e.changed) := by
  induction h generalizing r with
  | nil => exact ⟨r, hr, rfl, rfl, rfl⟩
  | @cons ps qs s e l r₀ state hr₀ _ _ _ ih =>
    by_cases hi : e.turn.index = i
    · obtain rfl : r₀ = r := Option.some.inj (hr₀.symm.trans (hi ▸ hr))
      have hset : (ps.set e.turn.index (r₀.ran e.changed state))[i]? =
          some (r₀.ran e.changed state) := by
        rw [← hi, List.getElem?_set_self (List.getElem?_eq_some_iff.mp hr₀).1]
      obtain ⟨r', hr', hkind, hruns, hchanges⟩ := ih hset
      refine ⟨r', hr', hkind, ?_, ?_⟩
      · rw [hruns, List.countP_cons_of_pos (by simpa using hi)]
        simp only [Registered.ran]
        omega
      · rw [hchanges, List.countP_cons]
        cases e.changed
        · simp [Registered.ran]
        · simp [Registered.ran, hi]
          omega
    · obtain ⟨r', hr', hkind, hruns, hchanges⟩ := ih (by rwa [List.getElem?_set_ne hi])
      refine ⟨r', hr', hkind, ?_, ?_⟩
      · rw [hruns, List.countP_cons_of_neg (by simpa using hi)]
      · rw [hchanges, List.countP_cons_of_neg (by simp [hi])]

end

namespace PipelineStats

/-- The counts after some passes, rounds and phases. -/
def after (stats : PipelineStats) (l : List PassRun) (rounds phases : Nat) : PipelineStats :=
  { stats with
    phasesRun := stats.phasesRun + phases
    passesRun := stats.passesRun + l.length
    passesChanged := stats.passesChanged + l.countP (·.changed)
    rounds := stats.rounds + rounds }

theorem after_after (stats : PipelineStats) (l m : List PassRun) (a b c d : Nat) :
    (stats.after l a b).after m c d = stats.after (l ++ m) (a + c) (b + d) := by
  simp [after, Nat.add_assoc]

end PipelineStats

namespace Session

variable {σ : Type} {check : Bool} {phase : Phase} {config : PipelineConfig} {s t u : Session σ}
  {plan plan' : List Turn} {a b c d : Nat} {l m : List PassRun}
  {x : Checked (Verdict × Session σ)}

/-- What is left of a session when passes have run. -/
structure Ran (s : Session σ) (l : List PassRun) (rounds phases : Nat) (t : Session σ) : Prop where
  executes : Executes s.passes s.shader l t.passes
  shader : t.shader = leftBy s.shader l
  stats : t.stats = s.stats.after l rounds phases

theorem Ran.trans (h : s.Ran l a b t) (h' : t.Ran m c d u) : s.Ran (l ++ m) (a + c) (b + d) u where
  executes := h.executes.append (h.shader ▸ h'.executes)
  shader := by rw [leftBy_append, ← h.shader, h'.shader]
  stats := by rw [h'.stats, h.stats, PipelineStats.after_after]

/-- Nothing that was left has a defect, if shaders are checked. -/
def Clean (check : Bool) (l : List PassRun) : Prop :=
  check → ∀ e ∈ l, e.left.check = .ok (.ok ())

theorem Clean.append (h : Clean check l) (h' : Clean check m) : Clean check (l ++ m) := by
  intro hc e he
  rcases List.mem_append.mp he with he | he
  · exact h hc e he
  · exact h' hc e he

/-- How a session comes to an end that was to run the passes of a plan: all have run, the last one
is to blame for a defect, its shader cannot be checked, or the next one fails. -/
inductive Answers (check : Bool) (s : Session σ) (plan : List Turn) (rounds phases : Nat) :
    List PassRun → Checked (Verdict × Session σ) → Prop
  | done {l : List PassRun} {t : Session σ} : s.Ran l rounds phases t → Clean check l →
      l.map (·.turn) = plan →
      Answers check s plan rounds phases l (.ok (.ok (l.any (·.changed)), t))
  | blamed {l : List PassRun} {e : PassRun} {t : Session σ} {r : Registered σ} {d : Defect}
      {a b : Nat} : check → s.Ran (l ++ [e]) a b t → Clean check l →
      (l ++ [e]).map (·.turn) <+: plan → s.passes[e.turn.index]? = some r →
      e.left.check = .ok (.error d) →
      Answers check s plan rounds phases (l ++ [e]) (.ok (.error ⟨r.pass.name, d⟩, t))
  | unchecked {l : List PassRun} {e : PassRun} {qs : List (Registered σ)} {fault : Fault} :
      check → Executes s.passes s.shader (l ++ [e]) qs → Clean check l →
      (l ++ [e]).map (·.turn) <+: plan → e.left.check = .error fault →
      Answers check s plan rounds phases (l ++ [e]) (.error fault)
  | failed {l : List PassRun} {p : Turn} {r : Registered σ} {qs : List (Registered σ)}
      {fault : Fault} : Executes s.passes s.shader l qs → Clean check l →
      l.map (·.turn) ++ [p] <+: plan → qs[p.index]? = some r →
      r.pass.run r.state (leftBy s.shader l) = .error fault →
      Answers check s plan rounds phases l (.error fault)

/-- Something has changed before. -/
def orChanged (changed : Bool) (x : Checked (Verdict × Session σ)) :
    Checked (Verdict × Session σ) := do
  let (verdict, t) ← x
  return (verdict.map (changed || ·), t)

theorem orChanged_eq_ok {changed v : Bool} (h : orChanged changed x = .ok (.ok v, t)) :
    ∃ w, x = .ok (.ok w, t) := by
  obtain ⟨⟨verdict, u⟩, hx, heq⟩ := bind_eq_ok.mp h
  cases verdict with
  | error e => cases heq
  | ok w =>
    cases heq
    exact ⟨w, hx⟩

theorem Answers.after (hran : s.Ran l a b t) (hclean : Clean check l)
    (hplan : l.map (·.turn) = plan) (h : Answers check t plan' c d m x) :
    Answers check s (plan ++ plan') (a + c) (b + d) (l ++ m)
      (orChanged (l.any (·.changed)) x) := by
  have hpre : ∀ {turns : List Turn}, turns <+: plan' →
      l.map (·.turn) ++ turns <+: plan ++ plan' := by
    intro turns h
    rw [hplan]
    exact (List.prefix_append_right_inj plan).mpr h
  cases h with
  | @done m u hran' hclean' hplan' =>
    have hall := Answers.done (hran.trans hran') (hclean.append hclean')
      (by rw [List.map_append, hplan, hplan'])
    rwa [List.any_append] at hall
  | @blamed m e u r' defect _ _ hcheck hran' hclean' hplan' hr' hdefect =>
    obtain ⟨r, hr, hpass⟩ := hran.executes.entry hr'
    have hran'' := hran.trans hran'
    have hplan'' := hpre hplan'
    rw [← List.map_append, ← List.append_assoc] at hplan''
    rw [← List.append_assoc] at hran'' ⊢
    have hall : Answers check s (plan ++ plan') (a + c) (b + d) (l ++ m ++ [e]) _ :=
      .blamed hcheck hran'' (hclean.append hclean') hplan'' hr hdefect
    rwa [hpass] at hall
  | @unchecked m e qs fault hcheck hexec hclean' hplan' hfault =>
    have hexec' := hran.executes.append (hran.shader ▸ hexec)
    have hplan'' := hpre hplan'
    rw [← List.map_append, ← List.append_assoc] at hplan''
    rw [← List.append_assoc] at hexec' ⊢
    exact .unchecked hcheck hexec' (hclean.append hclean') hplan'' hfault
  | @failed _ p r qs fault hexec hclean' hplan' hr hfault =>
    refine .failed (hran.executes.append (hran.shader ▸ hexec)) (hclean.append hclean') ?_ hr ?_
    · rw [List.map_append, List.append_assoc]
      exact hpre hplan'
    · rw [leftBy_append, ← hran.shader, hfault]

section Outcomes

variable (h : Answers check s plan a b l x)

include h

theorem Answers.ordered : l.map (·.turn) <+: plan := by
  cases h with
  | done _ _ hplan => exact hplan ▸ List.prefix_rfl
  | blamed _ _ _ hplan => exact hplan
  | unchecked _ _ _ hplan => exact hplan
  | failed _ _ hplan => exact (List.prefix_append _ _).trans hplan

theorem Answers.ran {verdict : Verdict} (hx : x = .ok (verdict, t)) : ∃ c d, s.Ran l c d t := by
  cases h with
  | done hran =>
    cases hx
    exact ⟨_, _, hran⟩
  | blamed _ hran =>
    cases hx
    exact ⟨_, _, hran⟩
  | _ => cases hx

theorem Answers.completed {changed : Bool} (hx : x = .ok (.ok changed, t)) :
    s.Ran l a b t ∧ l.map (·.turn) = plan ∧ changed = l.any (·.changed) := by
  cases h with
  | done hran _ hplan =>
    cases hx
    exact ⟨hran, hplan, rfl⟩
  | _ => cases hx

/-- A pass is blamed exactly when something that was left has a defect. -/
theorem Answers.blamed_iff : (∃ e t, x = .ok (.error e, t)) ↔
    check ∧ ∃ e ∈ l, ∃ defect, e.left.check = .ok (.error defect) := by
  cases h with
  | done _ hclean =>
    refine iff_of_false (by rintro ⟨_, _, hx⟩; cases hx) ?_
    rintro ⟨hcheck, e, he, defect, hdefect⟩
    cases (hclean hcheck e he).symm.trans hdefect
  | @blamed _ e _ _ defect _ _ hcheck _ _ _ _ hdefect =>
    exact iff_of_true ⟨_, _, rfl⟩ ⟨hcheck, e, by simp, defect, hdefect⟩
  | unchecked hcheck _ hclean _ hfault =>
    refine iff_of_false (by rintro ⟨_, _, hx⟩; cases hx) ?_
    rintro ⟨-, e, he, defect, hdefect⟩
    rcases List.mem_append.mp he with he | he
    · cases (hclean hcheck e he).symm.trans hdefect
    · obtain rfl := List.mem_singleton.mp he
      cases hfault.symm.trans hdefect
  | failed _ hclean =>
    refine iff_of_false (by rintro ⟨_, _, hx⟩; cases hx) ?_
    rintro ⟨hcheck, e, he, defect, hdefect⟩
    cases (hclean hcheck e he).symm.trans hdefect

theorem Answers.blame {error : PipelineError} (hx : x = .ok (.error error, t)) :
    ∃ done last entry, l = done ++ [last] ∧ (∀ e ∈ done, e.left.check = .ok (.ok ())) ∧
      last.left.check = .ok (.error error.defect) ∧ s.passes[last.turn.index]? = some entry ∧
      error.pass = entry.pass.name ∧ t.shader = last.left := by
  cases h with
  | @blamed done last _ entry _ _ _ hcheck hran hclean _ hentry hdefect =>
    cases hx
    refine ⟨done, last, entry, rfl, hclean hcheck, hdefect, hentry, rfl, ?_⟩
    simp [hran.shader, leftBy]
  | _ => cases hx

theorem Answers.fault {fault : Fault} (hx : x = .error fault) :
    ∃ entries, Executes s.passes s.shader l entries ∧
      ((check ∧ ∃ last ∈ l.getLast?, last.left.check = .error fault) ∨
        ∃ turn entry, l.map (·.turn) ++ [turn] <+: plan ∧ entries[turn.index]? = some entry ∧
          entry.pass.run entry.state (leftBy s.shader l) = .error fault) := by
  cases h with
  | @unchecked _ last entries _ hcheck hexec _ _ hfault =>
    cases hx
    exact ⟨entries, hexec, .inl ⟨hcheck, last, by simp, hfault⟩⟩
  | @failed _ turn entry entries _ hexec _ hplan hentry hfault =>
    cases hx
    exact ⟨entries, hexec, .inr ⟨turn, entry, hplan, hentry, hfault⟩⟩
  | _ => cases hx

end Outcomes

/-- What follows a part of a run, unless the run ends there. -/
def andThen (x : Checked (Verdict × Session σ))
    (k : Bool → Session σ → Checked (Verdict × Session σ)) : Checked (Verdict × Session σ) := do
  let (verdict, t) ← x
  match verdict with
  | .error e => return (.error e, t)
  | .ok changed => k changed t

/-- Either everything has gone well or what follows does not run. -/
theorem Answers.next (h : Answers check s plan a b l x) :
    (∃ t, x = .ok (.ok (l.any (·.changed)), t) ∧ s.Ran l a b t ∧ Clean check l ∧
      l.map (·.turn) = plan) ∨
    ∀ k, (∀ plan' c d, Answers check s (plan ++ plan') c d l (andThen x k)) ∧
      ∀ v t, andThen x k ≠ .ok (.ok v, t) := by
  have hpre : ∀ {turns plan' : List Turn}, turns <+: plan → turns <+: plan ++ plan' :=
    fun h => h.trans (List.prefix_append _ _)
  cases h with
  | done hran hclean hplan => exact .inl ⟨_, rfl, hran, hclean, hplan⟩
  | blamed hcheck hran hclean hplan hr hdefect =>
    exact .inr fun _ => ⟨fun _ _ _ => .blamed hcheck hran hclean (hpre hplan) hr hdefect, nofun⟩
  | unchecked hcheck hexec hclean hplan hfault =>
    exact .inr fun _ => ⟨fun _ _ _ => .unchecked hcheck hexec hclean (hpre hplan) hfault, nofun⟩
  | failed hexec hclean hplan hr hfault =>
    exact .inr fun _ => ⟨fun _ _ _ => .failed hexec hclean (hpre hplan) hr hfault, nofun⟩

theorem blame_cases (check : Bool) (name : String) (s : Shader) :
    (blame check name s = .ok none ∧ (check → s.check = .ok (.ok ()))) ∨
    (check ∧ ∃ d, blame check name s = .ok (some ⟨name, d⟩) ∧ s.check = .ok (.error d)) ∨
    (check ∧ ∃ fault, blame check name s = .error fault ∧ s.check = .error fault) := by
  cases check with
  | false => exact .inl ⟨rfl, by simp⟩
  | true =>
    cases h : s.check with
    | error fault =>
      refine .inr (.inr ⟨rfl, fault, ?_, rfl⟩)
      simp only [blame, ExceptT.run, h]
      rfl
    | ok v =>
      cases v with
      | ok _ => exact .inl ⟨blame_of_check fun _ => h, fun _ => rfl⟩
      | error defect =>
        refine .inr (.inl ⟨rfl, defect, ?_, rfl⟩)
        simp only [blame, ExceptT.run, h]
        rfl

theorem runPasses_answers (check : Bool) (phase : Phase) (round : Nat)
    (todo : List (Registered σ)) (s : Session σ) :
    ∃ l, Answers check { s with passes := s.passes ++ todo }
      (Turn.ofRound (todo.map (·.phase)) s.passes.length phase round) 0 0 l
      (runPasses check phase todo s) := by
  induction todo generalizing s with
  | nil => exact ⟨[], .done ⟨by simpa using .nil, rfl, rfl⟩ (by simp [Clean]) rfl⟩
  | cons r todo ih =>
    by_cases hphase : r.phase = phase
    · rw [List.map_cons, Turn.ofRound_cons, if_pos hphase]
      have hr : (s.passes ++ r :: todo)[s.passes.length]? = some r := by simp
      rw [runPasses, if_neg (not_not.mpr hphase)]
      cases hrun : r.pass.run r.state s.shader with
      | error fault =>
        exact ⟨[], .failed .nil (by simp [Clean]) ⟨_, rfl⟩ hr hrun⟩
      | ok o =>
        obtain ⟨changed, state, shader⟩ := o
        let e : PassRun := ⟨⟨phase, round, s.passes.length⟩, changed, shader⟩
        let s' : Session σ :=
          ⟨s.passes ++ [r.ran changed state], shader, s.stats.countPass changed⟩
        have hran : Ran { s with passes := s.passes ++ r :: todo } [e] 0 0
            { s' with passes := s'.passes ++ todo } := by
          refine ⟨.cons hr hphase hrun ?_, rfl, ?_⟩
          · simpa [s', e] using .nil
          · cases changed <;> rfl
        rw [ok_bind]
        rcases blame_cases check r.pass.name shader with
          ⟨hb, hpass⟩ | ⟨hc, defect, hb, hdefect⟩ | ⟨hc, fault, hb, hfault⟩
        · obtain ⟨l, h⟩ := ih s'
          have hall := Answers.after hran (fun hc => by simpa using hpass hc) rfl h
          refine ⟨e :: l, ?_⟩
          simp only [hb, ok_bind]
          simpa [s', e, orChanged] using hall
        · refine ⟨[e], ?_⟩
          simp only [hb, ok_bind]
          exact .blamed (l := []) hc hran (by simp [Clean]) ⟨_, rfl⟩ hr hdefect
        · refine ⟨[e], ?_⟩
          simp only [hb]
          exact .unchecked (l := []) hc hran.executes (by simp [Clean]) ⟨_, rfl⟩ hfault
    · obtain ⟨l, h⟩ := ih { s with passes := s.passes ++ [r] }
      refine ⟨l, ?_⟩
      rw [List.map_cons, Turn.ofRound_cons, if_neg hphase, runPasses, if_pos hphase]
      simpa using h

/-- The turns of a round. -/
def turns (s : Session σ) (phase : Phase) (round : Nat) : List Turn :=
  Turn.ofRound (s.passes.map (·.phase)) 0 phase round

theorem Ran.turns (h : s.Ran l a b t) : t.turns = s.turns := by
  funext phase round
  rw [Session.turns, h.executes.phases, Session.turns]

theorem runRound_answers (check : Bool) (phase : Phase) (round : Nat) (s : Session σ) :
    ∃ l, Answers check s (s.turns phase round) 0 0 l (s.runRound check phase) :=
  runPasses_answers check phase round s.passes { s with passes := [] }

/-- Of at most `n` rounds from the `k`-th on there are `r`, each but the first after a change. -/
structure Repeats (phase : Phase) (k n r : Nat) (l : List PassRun) : Prop where
  le : r ≤ n
  pos : n ≠ 0 → 1 ≤ r
  again : ∀ j, k ≤ j → j + 1 < k + r →
    ∃ e ∈ l, e.turn.phase = phase ∧ e.turn.round = j ∧ e.changed

theorem Repeats.one {k n : Nat} (hn : 1 ≤ n) : Repeats phase k n 1 l :=
  ⟨hn, fun _ => le_rfl, fun j hj hk => by omega⟩

theorem Repeats.succ {k n r : Nat} (h : Repeats phase (k + 1) n r m)
    (hround : ∀ e ∈ l, e.turn.phase = phase ∧ e.turn.round = k) (hany : l.any (·.changed)) :
    Repeats phase k (n + 1) (r + 1) (l ++ m) := by
  refine ⟨Nat.succ_le_succ h.le, by simp, fun j hj hk => ?_⟩
  rcases Nat.eq_or_lt_of_le hj with rfl | hlt
  · obtain ⟨e, he, hchanged⟩ := List.any_eq_true.mp hany
    exact ⟨e, by simp [he], (hround e he).1, (hround e he).2, hchanged⟩
  · obtain ⟨e, he, hfacts⟩ := h.again j hlt (by omega)
    exact ⟨e, by simp [he], hfacts⟩

/-- Nothing has changed in a round. -/
def Quiet (phase : Phase) (round : Nat) (l : List PassRun) : Prop :=
  ∀ e ∈ l, e.turn.phase = phase → e.turn.round = round → e.changed = false

theorem Quiet.append {round : Nat} (h : Quiet phase round l) (h' : Quiet phase round m) :
    Quiet phase round (l ++ m) := by
  intro e he
  rcases List.mem_append.mp he with he | he
  · exact h e he
  · exact h' e he

theorem of_turns {round : Nat} (h : l.map (·.turn) = s.turns phase round) :
    ∀ e ∈ l, e.turn.phase = phase ∧ e.turn.round = round := by
  intro e he
  exact Turn.of_mem_ofRound (h ▸ List.mem_map_of_mem he : e.turn ∈ s.turns phase round)

theorem runRounds_succ (check : Bool) (phase : Phase) (n : Nat) (s : Session σ) :
    s.runRounds check phase (n + 1) = andThen (s.runRound check phase) fun changed t =>
      if changed then orChanged true
        (runRounds check phase n { t with stats := t.stats.countRound phase })
      else .ok (.ok false, { t with stats := t.stats.countRound phase }) := by
  rw [runRounds, andThen]
  refine congrArg _ (funext fun r => ?_)
  obtain ⟨verdict, t⟩ := r
  cases verdict with
  | error e => rfl
  | ok changed =>
    cases changed with
    | false => rfl
    | true =>
      simp only [orChanged, Bool.true_or]
      rfl

theorem runRounds_answers (check : Bool) (phase : Phase) (n k : Nat) (s : Session σ) :
    ∃ r l, Repeats phase k n r l ∧
      Answers check s ((List.range' k r).flatMap (s.turns phase))
        (if phase = .optimize then r else 0) 0 l (s.runRounds check phase n) ∧
      ∀ v t, s.runRounds check phase n = .ok (.ok v, t) → r < n → Quiet phase (k + r - 1) l := by
  induction n generalizing k s with
  | zero =>
    refine ⟨0, [], ⟨le_rfl, by simp, fun j hj hk => by omega⟩, ?_, by simp⟩
    exact .done ⟨.nil, rfl, by simp [PipelineStats.after]⟩ (by simp [Clean]) rfl
  | succ n ih =>
    obtain ⟨l, h⟩ := runRound_answers check phase k s
    rw [runRounds_succ]
    rcases h.next with ⟨t, hx, hran, hclean, hplan⟩ | hstop
    · have hran' : s.Ran l (if phase = .optimize then 1 else 0) 0
          { t with stats := t.stats.countRound phase } := by
        refine ⟨hran.executes, hran.shader, ?_⟩
        simp only [hran.stats, PipelineStats.countRound]
        split_ifs <;> rfl
      have hround := of_turns hplan
      rw [hx]
      simp only [andThen, ok_bind]
      cases hany : l.any (·.changed) with
      | false =>
        refine ⟨1, l, .one (by omega), ?_, fun _ _ _ _ e he _ _ => ?_⟩
        · have hall := Answers.done hran' hclean hplan
          rw [hany] at hall
          simpa using hall
        · simpa using List.any_eq_false.mp hany e he
      | true =>
        obtain ⟨r, m, hrep, h', hquiet⟩ := ih (k + 1) { t with stats := t.stats.countRound phase }
        refine ⟨r + 1, l ++ m, hrep.succ hround hany, ?_, fun v u hres hlt => ?_⟩
        · have hall := Answers.after hran' hclean hplan h'
          have hrounds : (if phase = .optimize then 1 else 0) +
              (if phase = .optimize then r else 0) = if phase = .optimize then r + 1 else 0 := by
            split_ifs <;> omega
          rw [hany, hran'.turns, hrounds] at hall
          rwa [List.range'_succ, List.flatMap_cons, if_pos rfl]
        · obtain ⟨w, hw⟩ := orChanged_eq_ok (if_pos (rfl : true = true) ▸ hres)
          -- rounds were left, so the last one is not this one
          have hpos := hrep.pos (by omega)
          have hlast : k + (r + 1) - 1 = k + 1 + r - 1 := by omega
          rw [hlast]
          refine Quiet.append (fun e he _ heq => ?_) (hquiet w u hw (by omega))
          have := (hround e he).2
          omega
    · refine ⟨1, l, .one (by omega), ?_, fun v t hres => absurd hres ((hstop _).2 v t)⟩
      simpa using (hstop _).1 [] _ 0

theorem runPhase_eq (config : PipelineConfig) (phase : Phase) (s : Session σ) :
    s.runPhase config phase = andThen (s.runRounds config.check phase (roundsOf config phase))
      fun changed t => .ok (.ok changed, { t with stats := t.stats.countPhase }) := rfl

theorem runPhase_answers (config : PipelineConfig) (phase : Phase) (s : Session σ) :
    ∃ r l, Repeats phase 0 (roundsOf config phase) r l ∧
      Answers config.check s ((List.range r).flatMap (s.turns phase))
        (if phase = .optimize then r else 0) 1 l (s.runPhase config phase) ∧
      ∀ v t, s.runPhase config phase = .ok (.ok v, t) → r < roundsOf config phase →
        Quiet phase (r - 1) l := by
  obtain ⟨r, l, hrep, h, hquiet⟩ := runRounds_answers config.check phase (roundsOf config phase) 0 s
  rw [← List.range_eq_range'] at h
  refine ⟨r, l, hrep, ?_⟩
  rw [runPhase_eq]
  rcases h.next with ⟨t, hx, hran, hclean, hplan⟩ | hstop
  · refine ⟨?_, fun v u _ hlt => by simpa using hquiet _ t hx hlt⟩
    rw [hx]
    refine .done ⟨hran.executes, hran.shader, ?_⟩ hclean hplan
    rw [hran.stats]
    rfl
  · refine ⟨?_, fun v t hres => absurd hres ((hstop _).2 v t)⟩
    simpa using (hstop _).1 [] _ 1

theorem runPhases_cons (config : PipelineConfig) (phase : Phase) (phases : List Phase)
    (s : Session σ) : s.runPhases config (phase :: phases) = andThen (s.runPhase config phase)
      fun changed t => orChanged changed (t.runPhases config phases) := rfl

theorem runPhases_singleton (config : PipelineConfig) (phase : Phase) (s : Session σ) :
    s.runPhases config [phase] = s.runPhase config phase := by
  rw [runPhases_cons, andThen]
  cases s.runPhase config phase with
  | error fault => rfl
  | ok o =>
    obtain ⟨verdict, t⟩ := o
    cases verdict with
    | error e => rfl
    | ok changed => cases changed <;> rfl

/-- A run of some phases of which only the last is repeated. -/
def Completes (config : PipelineConfig) (s : Session σ) (plan : List Turn) (phases : Nat)
    (x : Checked (Verdict × Session σ)) : Prop :=
  ∃ r l, Repeats .optimize 0 (roundsOf config .optimize) r l ∧
    Answers config.check s (plan ++ (List.range r).flatMap (s.turns .optimize)) r phases l x ∧
    ∀ v t, x = .ok (.ok v, t) → r < roundsOf config .optimize → Quiet .optimize (r - 1) l

theorem runPhases_last (config : PipelineConfig) (s : Session σ) :
    Completes config s [] 1 (s.runPhases config [.optimize]) := by
  rw [runPhases_singleton]
  simpa [Completes] using runPhase_answers config .optimize s

theorem runPhases_first {phases : List Phase} {n : Nat} (hphase : phase ≠ .optimize)
    (hrest : ∀ t : Session σ, t.turns = s.turns →
      Completes config t plan n (t.runPhases config phases)) :
    Completes config s (s.turns phase 0 ++ plan) (1 + n)
      (s.runPhases config (phase :: phases)) := by
  obtain ⟨r, l, hrep, h, -⟩ := runPhase_answers config phase s
  have hone : roundsOf config phase = 1 := if_neg hphase
  obtain rfl : r = 1 := by
    have hle := hrep.le
    have hpos := hrep.pos (by simp [hone])
    omega
  rw [List.range_one, List.flatMap_singleton, if_neg hphase] at h
  rw [runPhases_cons]
  rcases h.next with ⟨t, hx, hran, hclean, hplan⟩ | hstop
  · obtain ⟨r, m, hrep', h', hquiet⟩ := hrest t hran.turns
    refine ⟨r, l ++ m, ⟨hrep'.le, hrep'.pos, fun j hj hk => ?_⟩, ?_, fun v u hres hlt => ?_⟩
    · obtain ⟨e, he, hfacts⟩ := hrep'.again j hj hk
      exact ⟨e, by simp [he], hfacts⟩
    · have hall := Answers.after hran hclean hplan h'
      rw [hran.turns, Nat.zero_add, ← List.append_assoc] at hall
      rwa [hx]
    · rw [hx] at hres
      obtain ⟨w, hw⟩ := orChanged_eq_ok hres
      refine Quiet.append (fun e he hp _ => ?_) (hquiet w u hw hlt)
      exact absurd ((of_turns hplan e he).1.symm.trans hp) hphase
  · have hbound : 1 ≤ roundsOf config .optimize := by simp [roundsOf]
    refine ⟨1, l, .one hbound, ?_, fun v t hres => absurd hres ((hstop _).2 v t)⟩
    rw [List.append_assoc]
    exact (hstop _).1 _ _ _

end Session

namespace Pipeline

open Session

variable {σ : Type}

/-- The turns of a run that takes `r` rounds in the last phase. -/
def schedule (p : Pipeline σ) (r : Nat) : List Turn :=
  let turns := Turn.ofRound (p.passes.map (·.phase)) 0
  turns .preLowering 0 ++ turns .postLowering 0 ++ (List.range r).flatMap (turns .optimize)

/-- What a run has executed when it ends, with at most `r` rounds of the last phase. With checking
on, it ends at the first pass that leaves a defect, and it fails only if a pass or a check does. -/
structure Record (p : Pipeline σ) (s : Shader) (r : Nat) (l : List PassRun) : Prop where
  rounds : 1 ≤ r ∧ r ≤ max p.config.maxRounds 1
  again : ∀ j, j + 1 < r → ∃ e ∈ l, e.turn.phase = .optimize ∧ e.turn.round = j ∧ e.changed
  ordered : l.map (·.turn) <+: p.schedule r
  returned : ∀ verdict t, p.run s = .ok (verdict, t) → Executes p.passes s l t.passes ∧
    t.shader = leftBy s l ∧ t.stats.passesRun = l.length ∧
    t.stats.passesChanged = l.countP (·.changed) ∧
    ∀ i entry, p.passes[i]? = some entry → ∃ entry', t.passes[i]? = some entry' ∧
      entry'.kind = entry.kind ∧ entry'.runs = entry.runs + l.countP (·.turn.index = i) ∧
      entry'.changes = entry.changes + l.countP (fun e => e.turn.index = i ∧ e.changed)
  completed : ∀ changed t, p.run s = .ok (.ok changed, t) → l.map (·.turn) = p.schedule r ∧
    changed = l.any (·.changed) ∧
    t.stats = ⟨3, l.length, l.countP (·.changed), r, s.size, t.shader.size⟩ ∧
    (r < max p.config.maxRounds 1 → Quiet .optimize (r - 1) l)
  blamed_iff : (∃ error t, p.run s = .ok (.error error, t)) ↔
    p.config.check ∧ ∃ e ∈ l, ∃ defect, e.left.check = .ok (.error defect)
  blamed : ∀ error t, p.run s = .ok (.error error, t) → ∃ done last entry, l = done ++ [last] ∧
    (∀ e ∈ done, e.left.check = .ok (.ok ())) ∧ last.left.check = .ok (.error error.defect) ∧
    p.passes[last.turn.index]? = some entry ∧ error.pass = entry.pass.name ∧ t.shader = last.left
  failed : ∀ fault, p.run s = .error fault → ∃ entries, Executes p.passes s l entries ∧
    ((p.config.check ∧ ∃ last ∈ l.getLast?, last.left.check = .error fault) ∨
      ∃ turn entry, l.map (·.turn) ++ [turn] <+: p.schedule r ∧
        entries[turn.index]? = some entry ∧
        entry.pass.run entry.state (leftBy s l) = .error fault)

/-- The session with which a run begins. -/
def start (p : Pipeline σ) (s : Shader) : Session σ :=
  ⟨p.passes, s, { PipelineStats.zero with initialSize := s.size }⟩

theorem Ran.returned {p : Pipeline σ} {s : Shader} {l : List PassRun} {a b : Nat} {t : Session σ}
    (h : (p.start s).Ran l a b t) : Executes p.passes s l t.passes ∧ t.shader = leftBy s l ∧
      t.stats.passesRun = l.length ∧ t.stats.passesChanged = l.countP (·.changed) ∧
      ∀ i entry, p.passes[i]? = some entry → ∃ entry', t.passes[i]? = some entry' ∧
        entry'.kind = entry.kind ∧ entry'.runs = entry.runs + l.countP (·.turn.index = i) ∧
        entry'.changes = entry.changes + l.countP (fun e => e.turn.index = i ∧ e.changed) := by
  refine ⟨h.executes, h.shader, ?_, ?_, fun i entry hentry => h.executes.counts hentry⟩
  · simp [h.stats, PipelineStats.after, start, PipelineStats.zero]
  · simp [h.stats, PipelineStats.after, start, PipelineStats.zero]

theorem runPhases_completes (p : Pipeline σ) (s : Shader) :
    Completes p.config (p.start s)
      ((p.start s).turns .preLowering 0 ++ ((p.start s).turns .postLowering 0 ++ [])) 3
      ((p.start s).runPhases p.config Phase.all) := by
  refine runPhases_first (n := 2) (by decide) fun t ht => ?_
  rw [← ht]
  exact runPhases_first (n := 1) (by decide) fun u _ => runPhases_last p.config u

theorem run_eq (p : Pipeline σ) (s : Shader) :
    p.run s = (p.start s).runPhases p.config Phase.all >>= fun x =>
      .ok (x.1, { x.2 with stats := { x.2.stats with finalSize := x.2.shader.size } }) := rfl

theorem run_eq_ok {p : Pipeline σ} {s : Shader} {verdict : Verdict} {t : Session σ} :
    p.run s = .ok (verdict, t) ↔ ∃ u, (p.start s).runPhases p.config Phase.all = .ok (verdict, u) ∧
      t = { u with stats := { u.stats with finalSize := u.shader.size } } := by
  rw [run_eq, bind_eq_ok]
  constructor
  · rintro ⟨⟨_, u⟩, hu, heq⟩
    cases heq
    exact ⟨u, hu, rfl⟩
  · rintro ⟨u, hu, rfl⟩
    exact ⟨(verdict, u), hu, rfl⟩

theorem runPhases_of_run_error {p : Pipeline σ} {s : Shader} {fault : Fault}
    (h : p.run s = .error fault) : (p.start s).runPhases p.config Phase.all = .error fault := by
  rw [run_eq] at h
  cases hx : (p.start s).runPhases p.config Phase.all with
  | error e =>
    rw [hx] at h
    exact h
  | ok o =>
    rw [hx] at h
    cases h

/-- Whatever the passes do, a run has a record. -/
theorem exists_record (p : Pipeline σ) (s : Shader) : ∃ r l, p.Record s r l := by
  obtain ⟨r, l, hrep, h, hquiet⟩ := p.runPhases_completes s
  have hbound : roundsOf p.config .optimize = max p.config.maxRounds 1 := rfl
  have hplan : (p.start s).turns .preLowering 0 ++ ((p.start s).turns .postLowering 0 ++ []) ++
      (List.range r).flatMap ((p.start s).turns .optimize) = p.schedule r := by
    rw [List.append_nil]
    rfl
  rw [hplan] at h
  rw [hbound] at hrep hquiet
  refine ⟨r, l, {
    rounds := ⟨hrep.pos (by omega), hrep.le⟩
    again := fun j hj => hrep.again j (Nat.zero_le j) (by omega)
    ordered := h.ordered
    returned := fun verdict t ht => ?_
    completed := fun changed t ht => ?_
    blamed_iff := ?_
    blamed := fun error t ht => ?_
    failed := fun fault ht => h.fault (runPhases_of_run_error ht) }⟩
  · obtain ⟨u, hu, rfl⟩ := run_eq_ok.mp ht
    obtain ⟨_, _, hran⟩ := h.ran hu
    have hreturned := Ran.returned hran
    exact hreturned
  · obtain ⟨u, hu, rfl⟩ := run_eq_ok.mp ht
    obtain ⟨hran, hturns, hchanged⟩ := h.completed hu
    refine ⟨hturns, hchanged, ?_, hquiet changed u hu⟩
    simp [hran.stats, PipelineStats.after, start, PipelineStats.zero]
  · rw [← h.blamed_iff]
    constructor
    · rintro ⟨e, t, ht⟩
      obtain ⟨u, hu, -⟩ := run_eq_ok.mp ht
      exact ⟨e, u, hu⟩
    · rintro ⟨e, u, hu⟩
      exact ⟨e, _, run_eq_ok.mpr ⟨u, hu, rfl⟩⟩
  · obtain ⟨u, hu, rfl⟩ := run_eq_ok.mp ht
    have hblame := h.blame hu
    exact hblame

end Pipeline

end ShaderSSA
