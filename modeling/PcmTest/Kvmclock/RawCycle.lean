import PcmTest.Kvmclock.Monotonic
import PcmTest.Kvmclock.Online
import PcmTest.Kvmclock.Solo
import PcmTest.Kvmclock.Warps

/-!
# The raw cycle phase

The critical sections of a call form a chain: each one subtracts what the one before it
stored in `last`. On the fast path both are raw values, so `delta` is negative exactly
when the raw clock has gone back between two consecutive sections. The raw cycle bit of
`valid_flags` is not tested anywhere; on the slow path inversions do not show.
-/

namespace PcmTest.Kvmclock

open Theory

/-! ## The chain of sections -/

section Chain

variable {K : Clock} {a : CycleArgs} {last : U64}

/-- What the sections of the log have left in `last`. -/
def lastStored (last : U64) : List (Section K) → U64
  | [] => last
  | e :: _ => e.next

/-- Each section has loaded what the section before it stored. -/
def Chained (last : U64) : List (Section K) → Prop
  | [] => True
  | e :: log => e.t0 = lastStored last log ∧ Chained last log

/-- Outside the first critical section `last` is what the log says. -/
def LastFree (last : U64) (g : CycleMem K) : Prop :=
  (g.mem.ti.lock = none → g.mem.ti.last = lastStored last g.mem.log) ∧ Chained last g.mem.log

/-- Inside, the worker goes from one stored value to the next. -/
def LastHeld (last : U64) (_cpu : ℕ) (g : CycleMem K) (w : Worker K) : Prop :=
  match w.pc with
  | .firstRead _ | .loadLast _ _ | .loadWarps _ | .storeWarps _ _ | .worstTest _ | .storeWorst _
  | .releaseWarp _ => g.mem.ti.last = lastStored last g.mem.log
  | .secondRead _ _ t0 _ => t0 = lastStored last g.mem.log
  | .storeLast e => e.t0 = lastStored last g.mem.log
  | .release e => e.t0 = lastStored last g.mem.log ∧ g.mem.ti.last = e.next
  | _ => True

theorem cycle_chained (K : Clock) (a : CycleArgs) (A : ℕ → WorkerEvent K → Prop) (last : U64) :
    (cycle K a).Inductive A (fun g => True ∧ LastFree last g)
      (fun cpu g w => LockedBy cpu g w ∧ LastHeld last cpu g w) := by
  refine (cycle_locked K a A).and ?_ ?_ ?_
  · intro cpu e g w g' w' _hA _hI hP hJ hQ h
    obtain ⟨m, hstep, rfl⟩ := cycle_thread h
    clear h
    obtain ⟨hfree, hchain⟩ := hJ
    cases hstep
    case acquire check i hlock => exact ⟨⟨by simp, hchain⟩, hfree hlock⟩
    case acquireWarp check i delta hlock => exact ⟨⟨by simp, hchain⟩, hfree hlock⟩
    case release check i e => exact ⟨⟨fun _ => hQ.2, hQ.1, hchain⟩, trivial⟩
    case releaseWarp check i delta => exact ⟨⟨fun _ => hQ, hchain⟩, trivial⟩
    case storeLast check i e =>
      have hheld : g.mem.ti.lock = some cpu := hP.mp rfl
      exact ⟨⟨by simp [hheld], hchain⟩, hQ, rfl⟩
    all_goals exact ⟨⟨hfree, hchain⟩, by simp_all [LastHeld]⟩
  · intro i j e g w g' w' u _hA hij _hI hP hPu _hJ hQ hQu h
    obtain ⟨m, hstep, rfl⟩ := cycle_thread h
    clear h
    unfold LastHeld at hQu ⊢
    cases hstep
    case storeLast check n e =>
      have hfree := lockedBy_other hij hP hPu rfl
      cases hu : u.pc <;> simp_all [Pc.holdsLock]
    case release check n e =>
      have hfree := lockedBy_other hij hP hPu rfl
      cases hu : u.pc <;> simp_all [Pc.holdsLock]
    all_goals exact hQu
  · intro e g g' _hI hJ h
    obtain ⟨hlog, -, hti⟩ := cycle_env h
    refine ⟨?_, fun i u _ hQ => ?_⟩
    · unfold LastFree at hJ ⊢
      rw [hlog, hti]
      exact hJ
    · unfold LastHeld at hQ ⊢
      rw [hlog, hti]
      exact hQ

theorem reached_chained {A : ℕ → WorkerEvent K → Prop} {clock : K.Shared} {ti : TestInfo}
    {tr : List (CycleAction K)} {s : CycleState K} (htr : ∀ x ∈ tr, Threads.Allowed A x)
    (hlock : ti.lock = none)
    (h : (cycle K a).machine.run (cycleStart K clock ti) tr = some s) :
    Chained ti.last s.shared.mem.log := by
  have hheld := cycleStart_warpHeld (K := K) a clock hlock
  have hs := (cycle_chained K a A ti.last).run htr h
    ⟨⟨trivial, fun _ => rfl, trivial⟩, fun cpu => ⟨(hheld.2 cpu).1.1, trivial⟩⟩
  exact hs.1.2.2

end Chain

/-! ## Raw values -/

def rawBelow (c d : ReadCall) : Bool :=
  match c.raw?, d.raw? with
  | some x, some y => x < y
  | _, _ => false

/-- In some section the raw value of the first read is below the raw value of the second
read of the section before it. -/
def inverted : List (Section pvclock) → Bool
  | later :: earlier :: log => rawBelow later.first earlier.second || inverted (earlier :: log)
  | _ => false

theorem inverted_append {log : List (Section pvclock)} (h : inverted log = true)
    (new : List (Section pvclock)) : inverted (new ++ log) = true := by
  induction new with
  | nil => exact h
  | cons e new ih =>
    cases hlog : new ++ log with
    | nil => simp [hlog, inverted] at ih
    | cons e' rest =>
      rw [hlog] at ih
      simp [inverted, hlog, ih]

/-- The entry's readings are the raw values of its calls, below the sign bit. -/
def Section.IsRaw (e : Section pvclock) : Prop :=
  (e.first.raw? = some e.t1 ∧ e.t1.toNat < S63) ∧ e.second.raw? = some e.next ∧ e.next.toNat < S63

/-- On raw entries, chained from zero, a negative `delta` is an inversion. -/
theorem warpCount_pos_iff {log : List (Section pvclock)} (hchain : Chained 0 log)
    (hraw : ∀ e ∈ log, e.IsRaw) : 0 < warpCount log ↔ inverted log = true := by
  induction log with
  | nil => simp [warpCount, inverted]
  | cons e log ih =>
    have ih' := ih hchain.2 fun e' he' => hraw e' (List.mem_cons_of_mem _ he')
    have he : e.IsRaw := hraw e (List.mem_cons_self ..)
    have hcount : 0 < warpCount (e :: log) ↔ e.delta < 0 ∨ 0 < warpCount log := by
      simp only [warpCount, Section.isWarp, List.countP_cons, decide_eq_true_eq]
      split_ifs with hneg
      · simp [hneg]
      · simp [hneg]
    rw [hcount, ih']
    cases log with
    | nil =>
      have ht0 : e.t0 = 0 := hchain.1
      have hneg : ¬ e.delta < 0 := by
        rw [Section.delta, ht0, clockDelta_neg_iff he.1.2 (by decide)]
        simp
      simp [inverted, hneg]
    | cons e' rest =>
      have he' : e'.IsRaw := hraw e' (by simp)
      have ht0 : e.t0 = e'.next := hchain.1
      have hneg : e.delta < 0 ↔ rawBelow e.first e'.second = true := by
        rw [Section.delta, ht0, clockDelta_neg_iff he.1.2 he'.2.2]
        simp [rawBelow, he.1.1, he'.2.1]
      rw [hneg]
      simp [inverted]

/-- A sample below the sign bit that its call returns at once. -/
def FastSample (validFlags : U8) (x : Sample) : Prop :=
  x.ret.toNat < S63 ∧ pathOf validFlags x.flags = .fast

/-- A call on the fast path, with a raw value below the sign bit. -/
def FastCall (validFlags : U8) : ReadCall → Prop
  | .retry => True
  | .flagTest ret flags => ret.toNat < S63 ∧ pathOf validFlags flags = .fast
  | .lastLoad _ | .swap _ _ => False
  | .returned _ ret value => ret.toNat < S63 ∧ value = ret

theorem fastCall_step {validFlags : U8} {g g' : ClockStatics} {c c' : ReadCall} {e : ReadEvent}
    (he : ∀ x, e = .sample x → FastSample validFlags x) (hg : g.validFlags = validFlags)
    (hc : FastCall validFlags c) (h : pvclockClocksourceRead g c e = some (g', c')) :
    FastCall validFlags c' := by
  subst hg
  rcases pvclockClocksourceRead_cases h with ⟨x, rfl, rfl, rfl, rfl⟩ |
    ⟨ret, flags, rfl, rfl, rfl, -, rfl⟩ | ⟨ret, flags, rfl, rfl, rfl, hslow, rfl⟩ |
    ⟨ret, rfl, rfl, rfl, rfl⟩ | ⟨ret, last, rfl, rfl, rfl, rfl⟩
  · exact he x rfl
  · exact ⟨hc.1, rfl⟩
  · have hfast := hc.2
    simp [pathOf, hslow] at hfast
  · exact hc.elim
  · exact hc.elim

theorem fastCall_value {validFlags : U8} {c : ReadCall} {v : U64} (hc : FastCall validFlags c)
    (hv : c.value? = some v) : c.raw? = some v ∧ v.toNat < S63 := by
  cases c with
  | returned path ret value =>
    cases hv
    obtain ⟨hret, rfl⟩ := hc
    exact ⟨rfl, hret⟩
  | _ => simp [ReadCall.value?] at hv

/-- What a worker on the fast path holds. -/
def RawHeld (validFlags : U8) (_cpu : ℕ) (_g : CycleMem pvclock) (w : Worker pvclock) : Prop :=
  match w.pc with
  | .plainRead c | .firstRead c => FastCall validFlags c
  | .loadLast first t1 => ReadCall.raw? first = some t1 ∧ t1.toNat < S63
  | .secondRead first t1 _ c =>
    (ReadCall.raw? first = some t1 ∧ t1.toNat < S63) ∧ FastCall validFlags c
  | .storeLast e | .release e => e.IsRaw
  | _ => True

theorem cycle_raw (a : CycleArgs) (validFlags : U8) :
    (cycle pvclock a).Inductive (Sampling (FastSample validFlags))
      (fun g => g.mem.clock.validFlags = validFlags ∧ ∀ e ∈ g.mem.log, e.IsRaw)
      (RawHeld validFlags) where
  own {cpu e g w g' w'} hA hI hP h := by
    obtain ⟨m, hstep, rfl⟩ := cycle_thread h
    clear h
    obtain ⟨hflags, hlog⟩ := hI
    cases hstep
    case plainRead check i c e g' c' hread =>
      exact ⟨⟨(pvclockClocksourceRead_validFlags hread).trans hflags, hlog⟩,
        fastCall_step (sampling_clock hA) hflags hP hread⟩
    case firstRead check i c e g' c' hread =>
      exact ⟨⟨(pvclockClocksourceRead_validFlags hread).trans hflags, hlog⟩,
        fastCall_step (sampling_clock hA) hflags hP hread⟩
    case secondRead check i first t1 t0 c e g' c' hread =>
      exact ⟨⟨(pvclockClocksourceRead_validFlags hread).trans hflags, hlog⟩, hP.1,
        fastCall_step (sampling_clock hA) hflags hP.2 hread⟩
    case firstDone check i c t1 hvalue => exact ⟨⟨hflags, hlog⟩, fastCall_value hP hvalue⟩
    case loadLast => exact ⟨⟨hflags, hlog⟩, hP, trivial⟩
    case secondDone check i first t1 t0 c next hvalue =>
      exact ⟨⟨hflags, hlog⟩, hP.1, fastCall_value hP.2 hvalue⟩
    case storeLast => exact ⟨⟨hflags, hlog⟩, hP⟩
    case release check i e =>
      refine ⟨⟨hflags, fun e' he' => ?_⟩, trivial⟩
      rcases List.mem_cons.mp he' with rfl | he'
      · exact hP
      · exact hlog e' he'
    all_goals exact ⟨⟨hflags, hlog⟩, trivial⟩
  other _ _ _ _ hQ _ := hQ
  env hI h := by
    obtain ⟨hlog, hclock, -⟩ := cycle_env h
    refine ⟨?_, fun _ _ hP => hP⟩
    rw [hlog, hclock]
    exact hI

theorem reached_raw {a : CycleArgs} {clock : ClockStatics} {ti : TestInfo}
    {tr : List (CycleAction pvclock)} {s : CycleState pvclock}
    (htr : ∀ x ∈ tr, Threads.Allowed (Sampling (FastSample clock.validFlags)) x)
    (h : (cycle pvclock a).machine.run (cycleStart pvclock clock ti) tr = some s) :
    ∀ e ∈ s.shared.mem.log, e.IsRaw :=
  ((cycle_raw a clock.validFlags).run htr h ⟨⟨rfl, by simp [cycleStart]⟩, fun _ => trivial⟩).1.2

/-! ## The phase -/

variable {p : Platform} {σ : Statics}

theorem pathOf_phaseFlags (k : Fin 4) (flags : U8) :
    pathOf (phaseFlags k) flags = .fast ↔ flags &&& pvclockTscStableBit ≠ 0 := by
  have hbit : phaseFlags k &&& pvclockTscStableBit ≠ 0 := by
    revert k
    decide
  unfold pathOf stablePath
  simp only [hbit, ne_eq, not_false_eq_true, true_and, decide_eq_true_eq]
  split_ifs with hflags
  · exact ⟨fun h => by simp at h, fun h => absurd hflags h⟩
  · exact ⟨fun _ => hflags, fun _ => rfl⟩

/-- When the results of a phase are in, its log is accounted for. -/
theorem completed_warps {A : Fin 4 → ℕ → WorkerEvent pvclock → Prop} {k : Fin 4}
    {printed : Option Totals} {result : ℤ} {clock : ClockStatics} {s : TestState}
    (hlock : (σ.ti k).lock = none)
    (h : Reached p σ A k (view k (.returned printed result) clock s)) :
    (s.shared.phases k).ti.warps =
        (σ.ti k).warps + (warpCount (s.shared.phases k).log : U64) ∧
      warpCount (s.shared.phases k).log ≤ p.ncpus * p.loops ∧
      IsLeast ({(σ.ti k).worst} ∪ warpDeltas (s.shared.phases k).log)
        (s.shared.phases k).ti.worst ∧
      (printed = if phaseCheck k = 1 then some ⟨(s.shared.phases k).ti.warps,
        (s.shared.phases k).ti.stalls, (s.shared.phases k).ti.worst⟩ else none) ∧
      result = if (s.shared.phases k).ti.warps ≠ 0 then 1 else 0 := by
  obtain ⟨clock₀, tr, -, htr, hrun⟩ := h
  have hquiet : Quiet (view k (.returned printed result) clock s) := fun cpu =>
    (joined_still htr hrun rfl cpu).symm.imp_left fun h => h.1
  have hlength := reached_log_length htr hlock hrun
  have hreports := (cycle_joins htr hrun).reports
  exact ⟨quiet_warps htr hlock hrun hquiet, List.countP_le_length.trans hlength,
    quiet_worst htr hlock hrun hquiet, hreports.1, hreports.2⟩

/-- When all reads of the raw cycle phase sample the stable bit, its `warps` end non-zero,
and the raw cycle is reported as not stable, exactly when some section has an inversion. -/
theorem raw_phase_reports_inversions (p : Platform) (σ : Statics) (hzero : σ.ti 0 = TestInfo.zero)
    (hbound : p.ncpus * p.loops < 2 ^ 64) (tr : List TestAction)
    (hstable : ∀ x ∈ phaseSamples 0 tr,
      x.ret.toNat < 2 ^ 63 ∧ x.flags &&& pvclockTscStableBit ≠ 0)
    (s : TestState) (hrun : (test p).machine.run (testStart σ) tr = some s)
    (hpast : 0 < s.shared.main.completed) :
    ((s.shared.phases 0).ti.warps ≠ 0 ↔ inverted (s.shared.phases 0).log = true) ∧
    ("Raw cycle is not stable\n" ∈ s.shared.console ↔
      inverted (s.shared.phases 0).log = true) := by
  have hsampling : ∀ x ∈ phaseSamples 0 tr, FastSample (phaseFlags 0) x := fun x hx =>
    ⟨(hstable x hx).1, (pathOf_phaseFlags 0 x.flags).mpr (hstable x hx).2⟩
  have hinv := test_phaseInv (allowed_phaseSampling hsampling) hrun 0
  obtain ⟨clock, printed, result, hreached, hresult⟩ := hinv.completed hpast
  have hlock : (σ.ti 0).lock = none := by rw [hzero]; rfl
  obtain ⟨hwarps, hle, -, -, hverdict⟩ := completed_warps hlock hreached
  obtain ⟨clock₀, tr₀, hflags, htr₀, hrun₀⟩ := hreached
  have htr : ∀ x ∈ tr₀, Threads.Allowed (Sampling (FastSample clock₀.validFlags)) x := by
    intro x hx
    have hx' := htr₀ x hx
    cases x with
    | thread cpu e => exact hflags ▸ hx' rfl
    | env e => trivial
  have hchain := reached_chained htr₀ hlock hrun₀
  rw [hzero] at hchain
  have hcount : 0 < warpCount (s.shared.phases 0).log ↔ inverted (s.shared.phases 0).log = true :=
    warpCount_pos_iff hchain (reached_raw htr hrun₀)
  have hiff : (s.shared.phases 0).ti.warps ≠ 0 ↔ inverted (s.shared.phases 0).log = true := by
    rw [hwarps, hzero, ← hcount]
    have hsmall : warpCount (s.shared.phases 0).log < 2 ^ 64 := hle.trans_lt hbound
    constructor
    · intro hne
      by_contra hnot
      obtain hnone : warpCount (s.shared.phases 0).log = 0 := by omega
      exact hne (by rw [hnone]; rfl)
    · intro hpos hnone
      have hmod := congrArg BitVec.toNat hnone
      simp [TestInfo.zero] at hmod
      omega
  refine ⟨hiff, ?_⟩
  obtain ⟨printed', result', hresult', hconsole⟩ := (test_reported hrun).2 hpast
  cases hresult.symm.trans hresult'
  rw [hconsole, ← hiff, hverdict]
  split_ifs with hw
  · exact ⟨fun _ => hw, fun _ => by decide⟩
  · exact ⟨fun h => absurd h (by decide), fun h => absurd h hw⟩

/-- Stable flags, and the second section's first read 15 after a second read 20. -/
theorem raw_phase_reports_inversions_found : ∃ (tr : List TestAction) (s : TestState),
    (test ⟨1, 2, fun _ _ => true⟩).machine.run (testStart Statics.zero) tr = some s ∧
    inverted (s.shared.phases 0).log = true ∧
    "Raw cycle is not stable\n" ∈ s.shared.console := by
  obtain ⟨s, hs, hread⟩ := Option.map_eq_some_iff.mp
    (show ((test ⟨1, 2, fun _ _ => true⟩).machine.run (testStart Statics.zero)
      (prologue ++ (callerSteps 4 ++ ownSteps 0 2 ++ fastSection 0 10 20 ++ ownSteps 0 1 ++
        fastSection 0 15 25 ++ ownSteps 0 9 ++ callerSteps 6).map (inPhase 0))).map
        (fun s => (s.shared.main, inverted (s.shared.phases 0).log)) =
        some (.setFlags 1, true) by decide)
  simp only [Prod.mk.injEq] at hread
  obtain ⟨hmain, hinverted⟩ := hread
  have hreports := raw_phase_reports_inversions ⟨1, 2, fun _ _ => true⟩ Statics.zero rfl
    (by decide) _ (by decide) s hs (by rw [hmain]; decide)
  exact ⟨_, s, hs, hinverted, hreports.2.mpr hinverted⟩

/-- Host flags without the stable bit: two sections read 10 and 20 each, so the raw clock
goes back from 20 to 10 between them, and nothing is reported. -/
theorem raw_phase_hides_inversion : ∃ (tr : List TestAction) (s : TestState),
    (test (onlinePlatform {0} defaultTestLoops)).machine.run (testStart Statics.zero) tr = some s ∧
    0 < s.shared.main.completed ∧
    (∀ x ∈ phaseSamples 0 tr, x.ret.toNat < 2 ^ 63 ∧ x.flags = 0) ∧
    inverted (s.shared.phases 0).log = true ∧ (s.shared.phases 0).ti.warps = 0 ∧
    s.shared.console = ["Raw cycle is stable\n"] := by
  let p := onlinePlatform {0} defaultTestLoops
  let start : List TestAction := prologue ++
    (callerSteps 4 ++ ownSteps 0 4 ++ clockRead 0 ⟨10, 0⟩ 4 ++ ownSteps 0 2 ++
      clockRead 0 ⟨20, 0⟩ 4 ++ ownSteps 0 7 ++ clockRead 0 ⟨10, 0⟩ 2 ++ ownSteps 0 2 ++
      clockRead 0 ⟨20, 0⟩ 3 ++ ownSteps 0 7).map (inPhase 0)
  have hstart : ∀ x ∈ phaseSamples 0 start, x.ret.toNat < 2 ^ 63 ∧ x.flags = 0 := by decide
  -- the first two iterations
  obtain ⟨u, hu, hread⟩ := Option.map_eq_some_iff.mp
    (show ((test p).machine.run (testStart Statics.zero) start).map
        (fun s => (s.shared.main, (s.locals (0, 0)).atLoopTest, (s.shared.phases 0).ti,
          s.shared.clock.lastValue, inverted (s.shared.phases 0).log)) =
        some (.cycle 0 .wait, some (1, 2), ⟨none, 0, 1, 0, 20, 1, 1⟩, 20, true) by decide)
  simp only [Prod.mk.injEq] at hread
  obtain ⟨hmain, hworker, hti, hlast, hinverted⟩ := hread
  -- the others, with the clock at 20
  have hready : Ready 20 0 ⟨u.shared.phases 0, u.shared.clock⟩ :=
    ⟨.inr hlast, by rw [hti], by rw [hti]⟩
  obtain ⟨tr, t, printed, result, htr, hsamples, hreturn, hstood⟩ :=
    standing_phase (p := p) hmain (atLoopTest_some hworker) (by decide) hready (by rw [hti])
  have hrun := Machine.run_trans hu htr
  have hinv := (test_phases hrun 0).active _ hreturn
  have hwarps : (t.shared.phases 0).ti.warps = 0 := by
    have hsame := congrArg TestInfo.warps hstood.ti
    rw [hti] at hsame
    exact hsame
  obtain ⟨-, -, -, -, hverdict⟩ := completed_warps rfl hinv
  rw [if_neg (not_not.mpr hwarps)] at hverdict
  have hreturn' := return_step (p := p) hreturn
  have hconsole := (test_reported hrun).1 (by rw [hreturn]; rfl)
  obtain ⟨new, hlog, -⟩ := hstood.log
  refine ⟨_, _, Machine.run_trans hrun hreturn', ?_, ?_, ?_, hwarps, ?_⟩
  · simp [afterCycle_main]
  · intro x hx
    rw [phaseSamples_append, phaseSamples_append] at hx
    rcases List.mem_append.mp hx with hx | hx
    · rcases List.mem_append.mp hx with hx | hx
      · exact hstart x hx
      · rw [hsamples x hx]
        decide
    · simp [phaseSamples] at hx
  · have hinv' := inverted_append hinverted new
    rw [← show (t.shared.phases 0).log = _ from hlog] at hinv'
    exact hinv'
  · simp [afterCycle, hconsole, hverdict, rawCycleMessage]

end PcmTest.Kvmclock
