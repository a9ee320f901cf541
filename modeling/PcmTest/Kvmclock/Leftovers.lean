import PcmTest.Kvmclock.Join
import PcmTest.Kvmclock.RawCycle

/-!
# What earlier ioctls leave behind

`cycle_test` sets `ncpus` and `check` of its `test_info` and nothing else, and the four
`test_info` are static. So the totals of a call start from those of all earlier calls on
the same `test_info`.
-/

namespace PcmTest.Kvmclock

open Theory

variable {p : Platform} {σ : Statics}

/-- The statics that some sequence of completed ioctls leaves, from the load of the module. -/
inductive History : Statics → Prop
  | load : History Statics.zero
  | ioctl {σ : Statics} {p : Platform} {tr : List TestAction} {s : TestState} : History σ →
      (test p).machine.run (testStart σ) tr = some s → s.shared.main = .exited →
      History (statics s)

theorem joined_unlocked {a : CycleArgs} {B : ℕ → WorkerEvent pvclock → Prop}
    {clock : ClockStatics} {ti : TestInfo} {tr : List (CycleAction pvclock)}
    {c : CycleState pvclock} (htr : ∀ x ∈ tr, Threads.Allowed B x) (hlock : ti.lock = none)
    (h : (cycle pvclock a).machine.run (cycleStart pvclock clock ti) tr = some c)
    (hjoined : c.shared.main.joined = true) : c.shared.mem.ti.lock = none := by
  have hheld := cycleStart_warpHeld (K := pvclock) a clock hlock
  have hlocked := (cycle_locked pvclock a B).run htr h
    ⟨trivial, fun cpu => (hheld.2 cpu).1.1⟩
  cases hcpu : c.shared.mem.ti.lock with
  | none => rfl
  | some cpu =>
    have hholds := (hlocked.2 cpu).mpr hcpu
    rcases joined_still htr h hjoined cpu with hpc | ⟨hpc, -⟩ <;> simp [hpc, Pc.holdsLock] at hholds

theorem history_unlocked (h : History σ) (k : Fin 4) : (σ.ti k).lock = none := by
  induction h with
  | load => rfl
  | ioctl hσ hrun hexit ih =>
    obtain ⟨clock, printed, result, ⟨clock₀, tr, -, htr, hreach⟩, -⟩ :=
      (test_phases hrun k).completed (by rw [hexit]; exact k.isLt)
    exact joined_unlocked htr ih hreach rfl

/-! ## Runs on one CPU -/

/-- The platform addresses CPU 0 only and reaches it. -/
structure OneCpu (p : Platform) : Prop where
  ncpus : p.ncpus = 1
  call : ∀ site, p.call site 0 = true

theorem main_read (f : ReadCall → TestPc)
    (hf : ∀ (g : TestMem) c e, testKvmClock p { g with main := f c } (.clock e) =
      (pvclockClocksourceRead g.clock c e).map fun r => { g with clock := r.1, main := f r.2 })
    {es : List ReadEvent} {g : TestMem} {c c' : ReadCall} {clock : ClockStatics}
    (h : readMachine.run (g.clock, c) es = some (clock, c'))
    (ws : Fin 4 × ℕ → Worker pvclock) :
    (test p).machine.run ⟨{ g with main := f c }, ws⟩ (es.map fun e => .env (.clock e)) =
      some ⟨{ g with clock := clock, main := f c' }, ws⟩ := by
  induction es generalizing g c with
  | nil =>
    cases h
    rfl
  | cons e es ih =>
    obtain ⟨⟨clock₁, c₁⟩, hstep, hrest⟩ := Machine.run_cons_some _ h
    have hread : pvclockClocksourceRead g.clock c e = some (clock₁, c₁) := hstep
    have hmain : (test p).machine.step ⟨{ g with main := f c }, ws⟩ (.env (.clock e)) =
        some ⟨{ g with clock := clock₁, main := f c₁ }, ws⟩ := by
      change (testKvmClock p { g with main := f c } (.clock e)).map _ = _
      rw [hf, hread]
      rfl
    exact Machine.run_trans (Machine.run_single hmain) (ih (g := { g with clock := clock₁ }) hrest)

theorem prologue_run (hp : OneCpu p) (σ : Statics) :
    ∃ tr s, (test p).machine.run (testStart σ) tr = some s ∧ s.shared.main = .setFlags 0 := by
  let g := (testStart σ).shared
  let g₁ : TestMem := { g with registered := mark true 0 true g.registered }
  have hstanding : Standing σ.clock.lastValue 0 σ.clock := .inr rfl
  obtain ⟨n, path, hread⟩ := standing_read hstanding
  let call : ReadCall := .returned path σ.clock.lastValue σ.clock.lastValue
  let ksec : ℤ := (pvclockReadWallclock σ.clock.lastValue 2 0).1.toNat
  let ws : Fin 4 × ℕ → Worker pvclock := fun _ => Worker.idle pvclock
  have h₁ : (test p).machine.run (testStart σ) [.env .own, .env .own, .env (.bootTime 2 0)] =
      some ⟨{ g₁ with main := .wallclockRead 0 2 0 .retry }, ws⟩ := by
    simp [Machine.run, Threads.machine, test, testKvmClock, testStart, hp.ncpus, hp.call, g₁, g, ws]
  have h₂ := main_read (p := p) (.wallclockRead 0 2 0) (fun _ _ _ => rfl) (g := g₁) hread ws
  have h₃ : (test p).machine.run ⟨{ g₁ with main := .wallclockRead 0 2 0 call }, ws⟩ [.env .own] =
      some ⟨{ g₁ with main := .wallclockPrint 0 ksec .retry }, ws⟩ := Threads.env_run rfl
  have h₄ := main_read (p := p) (.wallclockPrint 0 ksec) (fun _ _ _ => rfl) (g := g₁) hread ws
  let g₂ : TestMem := { g₁ with
    nerr := wallclockTest ksec g₁.nerr
    wallclocked := mark true 0 true g₁.wallclocked
    main := .wallclock 1 }
  have h₅ : (test p).machine.run ⟨{ g₁ with main := .wallclockPrint 0 ksec call }, ws⟩
      [.env .own] = some ⟨g₂, ws⟩ := Threads.env_run rfl
  have h₆ : (test p).machine.run ⟨g₂, ws⟩ [.env .own] =
      some ⟨{ g₂ with main := .setFlags 0 }, ws⟩ :=
    Threads.env_run (by simp [test, testKvmClock, hp.ncpus, g₂])
  exact ⟨_, _, Machine.run_trans h₁ (Machine.run_trans h₂ (Machine.run_trans h₃
    (Machine.run_trans h₄ (Machine.run_trans h₅ h₆)))), rfl⟩

/-- A run of `cycle_test` without a negative `delta`, to its return. -/
structure Clean (σ : Statics) (k : Fin 4) (t : TestState) : Prop where
  log : ∀ e ∈ (t.shared.phases k).log, e.delta = 0
  warps : (t.shared.phases k).ti.warps = (σ.ti k).warps
  worst : (t.shared.phases k).ti.worst = (σ.ti k).worst

theorem stablePath_phaseFlags (k : Fin 4) : stablePath (phaseFlags k) 1 = true := by
  revert k
  decide

theorem phase_completes (hp : OneCpu p) {k : Fin 4} (hlock : (σ.ti k).lock = none)
    {tr : List TestAction} {s : TestState} (hrun : (test p).machine.run (testStart σ) tr = some s)
    (hmain : s.shared.main = .setFlags k) :
    ∃ tr' t printed result, (test p).machine.run s tr' = some t ∧
      t.shared.main = .cycle k (.returned printed result) ∧ Clean σ k t := by
  obtain ⟨hphase, hidle⟩ :=
    (test_phases hrun k).fresh (by simp [hmain, TestPc.completed]) (by simp [hmain])
  let clock := pvclockSetFlags (phaseFlags k) s.shared.clock
  let u : TestState := ⟨{ s.shared with clock := clock, main := .cycle k .setNcpus }, s.locals⟩
  have hset : (test p).machine.run s [.env .own] = some u :=
    Threads.env_run (by simp only [test, testKvmClock, hmain, clock])
  have hview : view k .setNcpus clock u = cycleStart pvclock clock (σ.ti k) := by
    simp [view, cycleStart, u, hphase, hidle]
  have hclock : Standing (σ.ti k).last 1 clock := .inl (stablePath_phaseFlags k)
  obtain ⟨tr', c, printed, result, hcycle, hreturn, hlog, hwarps, hworst⟩ :=
    standing_call (a := p.cycleArgs k) hp.ncpus (hp.call _) hlock hclock
  rw [← hview] at hcycle
  have hplaced := place_run hcycle u
  rw [place_view (s := u) rfl] at hplaced
  refine ⟨_, place k c u, printed, result, Machine.run_trans hset hplaced, ?_, ?_, ?_, ?_⟩
  · simp only [place, hreturn]
  · simpa [place] using hlog
  · simpa [place] using hwarps
  · simpa [place] using hworst

theorem clear_completes (hp : OneCpu p) {s : TestState} (hmain : s.shared.main = .clockClear 0) :
    ∃ t, (test p).machine.run s [.env .own, .env .own] = some t ∧ t.shared.main = .exited := by
  let g : TestMem := { s.shared with
    registered := mark true 0 false s.shared.registered
    main := .clockClear 1 }
  have h₁ : (test p).machine.run s [.env .own] = some ⟨g, s.locals⟩ :=
    Threads.env_run (by simp [test, testKvmClock, hmain, hp.ncpus, hp.call, g])
  have h₂ : (test p).machine.run ⟨g, s.locals⟩ [.env .own] =
      some ⟨{ g with main := .exited }, s.locals⟩ :=
    Threads.env_run (by simp [test, testKvmClock, hp.ncpus, g])
  exact ⟨_, Machine.run_trans h₁ h₂, rfl⟩

/-- From the return of a phase on, the ioctl can be completed. -/
theorem ioctl_completes (hp : OneCpu p) (hlock : ∀ k, (σ.ti k).lock = none) (left : ℕ) :
    ∀ (k : Fin 4), k + left = 3 → ∀ (tr : List TestAction) (s : TestState) printed result,
      (test p).machine.run (testStart σ) tr = some s →
      s.shared.main = .cycle k (.returned printed result) →
      ∃ tr' t, (test p).machine.run s tr' = some t ∧ t.shared.main = .exited := by
  induction left with
  | zero =>
    intro k hk tr s printed result _ hmain
    have hlt : ¬ k.val + 1 < 4 := by omega
    have hmain' : (afterCycle k printed result s.shared).main = .clockClear 0 := dif_neg hlt
    have hnext := return_step (p := p) hmain
    obtain ⟨t, hclear, hexit⟩ :=
      clear_completes hp (s := ⟨afterCycle k printed result s.shared, s.locals⟩) hmain'
    exact ⟨_, t, Machine.run_trans hnext hclear, hexit⟩
  | succ left ih =>
    intro k hk tr s printed result hrun hmain
    have hlt : k.val + 1 < 4 := by omega
    have hnext := return_step (p := p) hmain
    have hmain' : (afterCycle k printed result s.shared).main = .setFlags ⟨k.val + 1, hlt⟩ :=
      dif_pos hlt
    obtain ⟨tr₁, t₁, printed₁, result₁, hrun₁, hmain₁, -⟩ :=
      phase_completes hp (hlock _) (Machine.run_trans hrun hnext) hmain'
    have hnow := Machine.run_trans (Machine.run_trans hrun hnext) hrun₁
    obtain ⟨tr₂, t₂, hrun₂, hexit⟩ := ih ⟨k.val + 1, hlt⟩ (by simp only; omega) _ t₁ _ _ hnow hmain₁
    exact ⟨_, t₂, Machine.run_trans hnext (Machine.run_trans hrun₁ hrun₂), hexit⟩

/-- Every phase can be reached and run to its return without a warp. -/
theorem phase_reached (hp : OneCpu p) (hlock : ∀ k, (σ.ti k).lock = none) (n : ℕ) :
    ∀ (h : n < 4), ∃ tr t printed result, (test p).machine.run (testStart σ) tr = some t ∧
      t.shared.main = .cycle ⟨n, h⟩ (.returned printed result) ∧ Clean σ ⟨n, h⟩ t := by
  induction n with
  | zero =>
    intro h
    obtain ⟨tr, s, hrun, hmain⟩ := prologue_run hp σ
    obtain ⟨tr', t, printed, result, hrun', hreturn, hclean⟩ :=
      phase_completes hp (hlock _) hrun hmain
    exact ⟨_, t, printed, result, Machine.run_trans hrun hrun', hreturn, hclean⟩
  | succ n ih =>
    intro h
    obtain ⟨tr, s, printed, result, hrun, hmain, -⟩ := ih (by omega)
    have hnext := return_step (p := p) hmain
    have hmain' : (afterCycle ⟨n, by omega⟩ printed result s.shared).main = .setFlags ⟨n + 1, h⟩ :=
      dif_pos h
    have hnow := Machine.run_trans hrun hnext
    obtain ⟨tr', t, printed', result', hrun', hreturn, hclean⟩ :=
      phase_completes hp (hlock _) hnow hmain'
    exact ⟨_, t, printed', result', Machine.run_trans hnow hrun', hreturn, hclean⟩

/-! ## Verdicts -/

theorem warpCount_eq_zero {K : Clock} {log : List (Section K)} :
    warpCount log = 0 ↔ ∀ e ∈ log, ¬ e.delta < 0 := by
  simp [warpCount, Section.isWarp, List.countP_eq_zero]

theorem oneCpu_online (loops : ℕ) : OneCpu (onlinePlatform {0} loops) :=
  ⟨by simp [onlinePlatform_ncpus, maxCpu], fun _ => by simp [onlinePlatform]⟩

/-- What a call of `cycle_test` with `check` says about itself: its verdict is whether one
of its own deltas was negative, and it prints their number and their minimum. -/
def OwnVerdict (log : List (Section pvclock)) (printed : Option Totals) (result : ℤ) : Prop :=
  (result = 1 ↔ ∃ e ∈ log, e.delta < 0) ∧
    ∃ totals, printed = some totals ∧ totals.warps.toNat = warpCount log ∧
      IsLeast ({0} ∪ warpDeltas log) totals.worst

/-- After any history of ioctls, a call with `check` gives its own verdict in all runs, on
all platforms, exactly when its `test_info` still has no warps and no worst warp. -/
theorem verdict_own_iff (σ : Statics) (hσ : History σ) (k : Fin 4) (hk : phaseCheck k = 1) :
    (∀ p : Platform, p.ncpus * p.loops < 2 ^ 64 → ∀ tr s printed result,
      (test p).machine.run (testStart σ) tr = some s →
      s.shared.main = .cycle k (.returned printed result) →
      OwnVerdict (s.shared.phases k).log printed result) ↔
    (σ.ti k).warps = 0 ∧ (σ.ti k).worst = 0 := by
  have hlock := history_unlocked hσ
  constructor
  · intro hown
    have hp := oneCpu_online defaultTestLoops
    obtain ⟨tr, s, printed, result, hrun, hmain, hclean⟩ := phase_reached hp hlock k.val k.isLt
    have hreached := (test_phases hrun k).active _ hmain
    obtain ⟨-, -, -, hprinted, -⟩ := completed_warps (hlock k) hreached
    obtain ⟨-, totals, htotals, hcount, hworst⟩ :=
      hown _ (by rw [hp.ncpus]; decide) tr s printed result hrun hmain
    rw [if_pos hk] at hprinted
    cases hprinted.symm.trans htotals
    have hnone : warpCount (s.shared.phases k).log = 0 := by
      rw [warpCount_eq_zero]
      intro e he
      rw [hclean.log e he]
      exact lt_irrefl 0
    refine ⟨?_, ?_⟩
    · rw [← hclean.warps]
      exact BitVec.eq_of_toNat_eq (hcount.trans hnone)
    · rw [← hclean.worst]
      rcases hworst.1 with hzero | ⟨-, e, he, hdelta⟩
      · exact hzero
      · exact hdelta.symm.trans (hclean.log e he)
  · rintro ⟨hwarps, hworst⟩ p hbound tr s printed result hrun hmain
    have hreached := (test_phases hrun k).active _ hmain
    obtain ⟨htotal, hle, hleast, hprinted, hresult⟩ := completed_warps (hlock k) hreached
    rw [hwarps, zero_add] at htotal
    rw [hworst] at hleast
    have hnat : (s.shared.phases k).ti.warps.toNat = warpCount (s.shared.phases k).log := by
      rw [htotal]
      exact Nat.mod_eq_of_lt (hle.trans_lt hbound)
    refine ⟨?_, _, hprinted.trans (if_pos hk), hnat, hleast⟩
    have hverdict : (s.shared.phases k).ti.warps ≠ 0 ↔
        ∃ e ∈ (s.shared.phases k).log, e.delta < 0 := by
      have hcount : (s.shared.phases k).ti.warps = 0 ↔ warpCount (s.shared.phases k).log = 0 := by
        rw [← hnat]
        exact BitVec.toNat_eq
      rw [ne_eq, hcount, warpCount_eq_zero]
      push Not
      rfl
    rw [← hverdict, hresult]
    split_ifs with hne
    · exact ⟨fun _ => hne, fun _ => rfl⟩
    · exact ⟨fun h => absurd h (by decide), fun h => absurd h hne⟩

/-- The first ioctl after the load of the module, with a warp of -5. -/
theorem verdict_own_iff_first : ∃ (tr : List TestAction) (s : TestState),
    (test ⟨1, 2, fun _ _ => true⟩).machine.run (testStart Statics.zero) tr = some s ∧
    s.shared.main = .cycle 0 (.returned (some ⟨1, 0, -5⟩) 1) ∧
    OwnVerdict (s.shared.phases 0).log (some ⟨1, 0, -5⟩) 1 := by
  obtain ⟨s, hs, hmain⟩ := Option.map_eq_some_iff.mp
    (show ((test ⟨1, 2, fun _ _ => true⟩).machine.run (testStart Statics.zero)
      (prologue ++ (callerSteps 4 ++ ownSteps 0 2 ++ fastSection 0 10 20 ++ ownSteps 0 1 ++
        fastSection 0 15 25 ++ ownSteps 0 9 ++ callerSteps 5).map (inPhase 0))).map
        (fun s => s.shared.main) =
        some (.cycle 0 (.returned (some ⟨1, 0, -5⟩) 1)) by decide)
  exact ⟨_, s, hs, hmain, (verdict_own_iff Statics.zero .load 0 rfl).mpr ⟨rfl, rfl⟩
    ⟨1, 2, fun _ _ => true⟩ (by decide) _ s _ _ hs hmain⟩

/-- An ioctl with one warp leaves `warps` at 1 and `worst` at -5. -/
theorem history_warp : ∃ σ, History σ ∧ (σ.ti 0).warps = 1 ∧ (σ.ti 0).worst = -5 := by
  let p := onlinePlatform {0} defaultTestLoops
  have hp : OneCpu p := oneCpu_online defaultTestLoops
  obtain ⟨u, hu, hread⟩ := Option.map_eq_some_iff.mp
    (show ((test p).machine.run (testStart Statics.zero)
      (prologue ++ (callerSteps 4 ++ ownSteps 0 2 ++ fastSection 0 10 20 ++ ownSteps 0 1 ++
        fastSection 0 15 25 ++ ownSteps 0 7).map (inPhase 0))).map
        (fun s => (s.shared.main, (s.locals (0, 0)).atLoopTest, (s.shared.phases 0).ti,
          s.shared.clock.validFlags)) =
        some (.cycle 0 .wait, some (1, 2), ⟨none, 1, 0, -5, 25, 1, 1⟩, phaseFlags 0) by decide)
  simp only [Prod.mk.injEq] at hread
  obtain ⟨hmain, hworker, hti, hflags⟩ := hread
  have hstable : stablePath u.shared.clock.validFlags 1 = true := by
    rw [hflags]
    exact stablePath_phaseFlags 0
  have hready : Ready 25 1 ⟨u.shared.phases 0, u.shared.clock⟩ :=
    ⟨.inl hstable, by rw [hti], by rw [hti]⟩
  obtain ⟨tr, t, printed, result, htr, -, hreturn, hstood⟩ :=
    standing_phase (p := p) hmain (atLoopTest_some hworker) (by decide) hready (by rw [hti])
  have hrun := Machine.run_trans hu htr
  obtain ⟨tr', x, hrun', hexit⟩ :=
    ioctl_completes hp (σ := Statics.zero) (fun _ => rfl) 3 0 rfl _ t printed result hrun hreturn
  have hinv := test_phases hrun
  have hsettled : Settled 0 (t.shared.phases 0).ti t := ⟨rfl, .inr ⟨_, hreturn, rfl⟩⟩
  have hkept := (settled_run hinv hsettled hrun').1
  have htotals := hstood.ti
  refine ⟨statics x, History.load.ioctl (Machine.run_trans hrun hrun') hexit, ?_, ?_⟩
  · have hwarps := congrArg TestInfo.warps (hkept.trans htotals)
    rw [hti] at hwarps
    exact hwarps
  · have hworst := congrArg TestInfo.worst (hkept.trans htotals)
    rw [hti] at hworst
    exact hworst

/-- A run of the first phase without any negative `delta`, after an ioctl with one warp. -/
theorem phase_inherits (hσ : History σ) (hwarps : (σ.ti 0).warps = 1)
    (hworst : (σ.ti 0).worst = -5) : ∃ (tr : List TestAction) (s : TestState) (stalls : U64),
    (test (onlinePlatform {0} defaultTestLoops)).machine.run (testStart σ) tr = some s ∧
    s.shared.main = .cycle 0 (.returned (some ⟨1, stalls, -5⟩) 1) ∧
    ∀ e ∈ (s.shared.phases 0).log, e.delta = 0 := by
  have hlock := history_unlocked hσ
  obtain ⟨tr, s, printed, result, hrun, hmain, hclean⟩ :=
    phase_reached (oneCpu_online defaultTestLoops) hlock 0 (by decide)
  have hreached := (test_phases hrun 0).active _ hmain
  obtain ⟨-, -, -, hprinted, hresult⟩ := completed_warps (hlock 0) hreached
  have hw : (s.shared.phases 0).ti.warps = 1 := hclean.warps.trans hwarps
  have hmin : (s.shared.phases 0).ti.worst = -5 := hclean.worst.trans hworst
  rw [if_pos (show phaseCheck 0 = 1 from rfl), hw, hmin] at hprinted
  rw [hw, if_pos (by decide)] at hresult
  subst hprinted hresult
  exact ⟨tr, s, _, hrun, hmain, hclean.log⟩

/-- After that ioctl, a run without any negative `delta` returns 1, and prints one warp. -/
theorem verdict_inherited :
    ∃ σ, History σ ∧ ∃ (tr : List TestAction) (s : TestState) (stalls : U64),
    (test (onlinePlatform {0} defaultTestLoops)).machine.run (testStart σ) tr = some s ∧
    s.shared.main = .cycle 0 (.returned (some ⟨1, stalls, -5⟩) 1) ∧
    (∀ e ∈ (s.shared.phases 0).log, e.delta = 0) ∧
    ¬ OwnVerdict (s.shared.phases 0).log (some ⟨1, stalls, -5⟩) 1 := by
  obtain ⟨σ, hσ, hwarps, hworst⟩ := history_warp
  obtain ⟨tr, s, stalls, hrun, hmain, hlog⟩ := phase_inherits hσ hwarps hworst
  refine ⟨σ, hσ, tr, s, stalls, hrun, hmain, hlog, fun hown => ?_⟩
  obtain ⟨e, he, hneg⟩ := hown.1.mp rfl
  rw [hlog e he] at hneg
  exact lt_irrefl 0 hneg

end PcmTest.Kvmclock
