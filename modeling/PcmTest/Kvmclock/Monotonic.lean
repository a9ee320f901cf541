import PcmTest.Kvmclock.CycleTest

/-!
# Slow reads never warp

Under the lock a worker reads the clock, loads `last` and stores a second reading there.
When all reads take the slow path, `last` never exceeds `last_value`, the first reading
of a section has reached it, and no `delta` is negative.
-/

namespace PcmTest.Kvmclock

open Theory

variable {a : CycleArgs} {validFlags : U8}

/-- Below the sign bit the difference has the sign of the comparison. -/
theorem clockDelta_neg_iff {t1 t0 : U64} (h₁ : t1.toNat < S63) (h₀ : t0.toNat < S63) :
    clockDelta t1 t0 < 0 ↔ t1 < t0 := by
  have hlt : t1 < t0 ↔ t1.toNat < t0.toNat := BitVec.lt_def
  rw [clockDelta, hlt, BitVec.toInt_eq_toNat_cond, BitVec.toNat_sub]
  unfold S63 at h₁ h₀
  split_ifs <;> omega

/-- A sample below the sign bit that sends its call to the slow path. -/
def SlowSample (validFlags : U8) (x : Sample) : Prop :=
  x.ret.toNat < S63 ∧ pathOf validFlags x.flags = .slow

/-- A slow call over words below the sign bit. -/
def SlowCall (g : ClockStatics) (c : ReadCall) : Prop :=
  c.Within (fun w => w.toNat < S63) ∧ c.Behind g.lastValue ∧ c.OnPath .slow g.validFlags

/-- The clock as slow reads leave it. -/
def SlowClock (validFlags : U8) (g : ClockStatics) : Prop :=
  g.validFlags = validFlags ∧ g.lastValue.toNat < S63

theorem sampling_clock {Q : Sample → Prop} {cpu : ℕ} {e : ReadEvent}
    (h : Sampling Q cpu (.clock e)) : ∀ x, e = .sample x → Q x := by
  rintro x rfl
  exact h x rfl

theorem slowCall_step {g g' : ClockStatics} {c c' : ReadCall} {e : ReadEvent}
    (he : ∀ x, e = .sample x → SlowSample validFlags x) (hg : SlowClock validFlags g)
    (hc : SlowCall g c)
    (h : pvclockClocksourceRead g c e = some (g', c')) :
    SlowClock validFlags g' ∧ g.lastValue ≤ g'.lastValue ∧ SlowCall g' c' := by
  obtain ⟨hwithin, hbehind, hpath⟩ := hc
  have hflags := pvclockClocksourceRead_validFlags h
  obtain ⟨hlast, hwithin'⟩ :=
    ReadCall.within_step (fun x hx => (he x hx).1) hg.2 hwithin h
  obtain ⟨hmono, hbehind'⟩ := ReadCall.behind_step hbehind h
  have hpath' := ReadCall.onPath_step (fun x hx => hg.1 ▸ (he x hx).2) hpath h
  exact ⟨⟨hflags.trans hg.1, hlast⟩, hmono, hwithin', hbehind', hflags ▸ hpath'⟩

theorem slowCall_mono {g g' : ClockStatics} {c : ReadCall} (hflags : g'.validFlags = g.validFlags)
    (hmono : g.lastValue ≤ g'.lastValue) (hc : SlowCall g c) : SlowCall g' c :=
  ⟨hc.1, ReadCall.behind_mono hmono hc.2.1, hflags ▸ hc.2.2⟩

theorem slowCall_start (g : ClockStatics) : SlowCall g ReadCall.retry :=
  ⟨trivial, trivial, trivial⟩

/-- A slow call returns what it has reached and what is still below `last_value`. -/
theorem slowCall_value {g : ClockStatics} {c : ReadCall} {v : U64} (hc : SlowCall g c)
    (hv : c.value? = some v) :
    v.toNat < S63 ∧ v ≤ g.lastValue ∧ ∀ x, c.Beyond x → x ≤ v := by
  cases c with
  | returned path ret value =>
    cases hv
    cases (show path = .slow from hc.2.2)
    exact ⟨hc.1.2, hc.2.1.2, fun x hx => hx⟩
  | _ => simp [ReadCall.value?] at hv

/-- Nothing has been counted, and `last` is below the clock. -/
def Unwarped (validFlags : U8) (ti : TestInfo) (g : CycleMem pvclock) : Prop :=
  SlowClock validFlags g.mem.clock ∧ g.mem.ti.last ≤ g.mem.clock.lastValue ∧
    g.mem.ti.warps = ti.warps ∧ g.mem.ti.worst = ti.worst ∧ ∀ e ∈ g.mem.log, ¬ e.delta < 0

/-- The clock values a worker holds, in the order they have by its protocol. -/
def InOrder (_cpu : ℕ) (g : CycleMem pvclock) (w : Worker pvclock) : Prop :=
  match w.pc with
  | .plainRead c => SlowCall g.mem.clock c
  | .firstRead c => SlowCall g.mem.clock c ∧ ReadCall.Beyond g.mem.ti.last c
  | .loadLast _ t1 => t1.toNat < S63 ∧ g.mem.ti.last ≤ t1
  | .secondRead _ t1 t0 c => SlowCall g.mem.clock c ∧ t1.toNat < S63 ∧ t0 ≤ t1
  | .storeLast e => e.t1.toNat < S63 ∧ e.t0 ≤ e.t1 ∧ e.next ≤ g.mem.clock.lastValue
  | .release e => e.t1.toNat < S63 ∧ e.t0 ≤ e.t1
  | .warpTest delta => ¬ delta < 0
  | .acquireWarp _ | .loadWarps _ | .storeWarps _ _ | .worstTest _ | .storeWorst _
  | .releaseWarp _ => False
  | _ => True

theorem delta_nonneg {e : Section pvclock} (h₁ : e.t1.toNat < S63) (h₀ : e.t0 ≤ e.t1) :
    ¬ e.delta < 0 := by
  have hle : e.t0.toNat ≤ e.t1.toNat := BitVec.le_def.mp h₀
  rw [Section.delta, clockDelta_neg_iff h₁ (hle.trans_lt h₁)]
  exact BitVec.not_lt.mpr h₀

/-- A slow access raises `last_value` and keeps everything below it. -/
theorem unwarped_clock {ti : TestInfo} {g : CycleMem pvclock} {g' : ClockStatics}
    (hg : Unwarped validFlags ti g) (hclock : SlowClock validFlags g')
    (hmono : g.mem.clock.lastValue ≤ g'.lastValue) :
    Unwarped validFlags ti { g with mem := { g.mem with clock := g' } } := by
  obtain ⟨-, hlast, hwarps, hworst, hlog⟩ := hg
  exact ⟨hclock, BitVec.le_trans hlast hmono, hwarps, hworst, hlog⟩

theorem inOrder_clock {cpu : ℕ} {g : CycleMem pvclock} {w : Worker pvclock} {g' : ClockStatics}
    (hw : InOrder cpu g w) (hflags : g'.validFlags = g.mem.clock.validFlags)
    (hmono : g.mem.clock.lastValue ≤ g'.lastValue) :
    InOrder cpu { g with mem := { g.mem with clock := g' } } w := by
  unfold InOrder at hw ⊢
  cases hpc : w.pc <;> simp only [hpc] at hw ⊢
  case plainRead c => exact slowCall_mono hflags hmono hw
  case firstRead c => exact ⟨slowCall_mono hflags hmono hw.1, hw.2⟩
  case secondRead first t1 t0 c => exact ⟨slowCall_mono hflags hmono hw.1, hw.2⟩
  case storeLast e => exact ⟨hw.1, hw.2.1, BitVec.le_trans hw.2.2 hmono⟩
  all_goals exact hw

theorem inOrder_own {ti : TestInfo} {loops cpu : ℕ} {e : WorkerEvent pvclock} {g : CycleMem pvclock}
    {w w' : Worker pvclock} {m : Mem pvclock} (hA : Sampling (SlowSample validFlags) cpu e)
    (hg : Unwarped validFlags ti g) (hw : InOrder cpu g w)
    (hstep : WorkerStep loops cpu g.mem w e m w') :
    Unwarped validFlags ti { g with mem := m } ∧ InOrder cpu { g with mem := m } w' := by
  cases hstep
  case plainRead check i c e g' c' hread =>
    obtain ⟨hclock, hmono, hc⟩ := slowCall_step (sampling_clock hA) hg.1 hw hread
    exact ⟨unwarped_clock hg hclock hmono, hc⟩
  case firstRead check i c e g' c' hread =>
    obtain ⟨hclock, hmono, hc⟩ := slowCall_step (sampling_clock hA) hg.1 hw.1 hread
    exact ⟨unwarped_clock hg hclock hmono, hc, ReadCall.beyond_step hg.2.1 hw.2 hread⟩
  case secondRead check i first t1 t0 c e g' c' hread =>
    obtain ⟨hclock, hmono, hc⟩ := slowCall_step (sampling_clock hA) hg.1 hw.1 hread
    exact ⟨unwarped_clock hg hclock hmono, hc, hw.2⟩
  case plainIter => exact ⟨hg, slowCall_start _⟩
  case acquire => exact ⟨hg, slowCall_start _, trivial⟩
  case firstDone check i c t1 hvalue =>
    obtain ⟨hbelow, -, hbeyond⟩ := slowCall_value hw.1 hvalue
    exact ⟨hg, hbelow, hbeyond _ hw.2⟩
  case loadLast => exact ⟨hg, slowCall_start _, hw⟩
  case secondDone check i first t1 t0 c next hvalue =>
    obtain ⟨-, hle, -⟩ := slowCall_value hw.1 hvalue
    exact ⟨hg, hw.2.1, hw.2.2, hle⟩
  case storeLast => exact ⟨⟨hg.1, hw.2.2, hg.2.2⟩, hw.1, hw.2.1⟩
  case release check i e =>
    obtain ⟨hclock, hlast, hwarps, hworst, hlog⟩ := hg
    have hdelta := delta_nonneg hw.1 hw.2
    refine ⟨⟨hclock, hlast, hwarps, hworst, fun e' he' => ?_⟩, hdelta⟩
    rcases List.mem_cons.mp he' with rfl | he'
    · exact hdelta
    · exact hlog e' he'
  -- no worker with ordered values reaches the recording section
  case warpFound check i delta hd => exact absurd hd hw
  case acquireWarp => exact hw.elim
  case loadWarps => exact hw.elim
  case storeWarps => exact hw.elim
  case worstFound => exact hw.elim
  case worstKept => exact hw.elim
  case storeWorst => exact hw.elim
  case releaseWarp => exact hw.elim
  all_goals exact ⟨hg, trivial⟩

theorem inOrder_other {ti : TestInfo} {loops i j : ℕ} {e : WorkerEvent pvclock}
    {g : CycleMem pvclock} {w w' u : Worker pvclock} {m : Mem pvclock}
    (hA : Sampling (SlowSample validFlags) i e) (hij : i ≠ j) (hw : LockedBy i g w)
    (hu : LockedBy j g u) (hg : Unwarped validFlags ti g) (hown : InOrder i g w)
    (hother : InOrder j g u) (hstep : WorkerStep loops i g.mem w e m w') :
    InOrder j { g with mem := m } u := by
  cases hstep
  case plainRead check n c e g' c' hread =>
    obtain ⟨hclock, hmono, -⟩ := slowCall_step (sampling_clock hA) hg.1 hown hread
    exact inOrder_clock hother (hclock.1.trans hg.1.1.symm) hmono
  case firstRead check n c e g' c' hread =>
    obtain ⟨hclock, hmono, -⟩ := slowCall_step (sampling_clock hA) hg.1 hown.1 hread
    exact inOrder_clock hother (hclock.1.trans hg.1.1.symm) hmono
  case secondRead check n first t1 t0 c e g' c' hread =>
    obtain ⟨hclock, hmono, -⟩ := slowCall_step (sampling_clock hA) hg.1 hown.1 hread
    exact inOrder_clock hother (hclock.1.trans hg.1.1.symm) hmono
  case storeLast check n e =>
    -- the other worker is outside the lock, where `last` does not matter
    have hfree := lockedBy_other hij hw hu rfl
    unfold InOrder at hother ⊢
    cases hpc : u.pc <;> simp_all [Pc.holdsLock]
  all_goals exact hother

theorem cycle_inOrder (a : CycleArgs) (validFlags : U8) (ti : TestInfo) :
    (cycle pvclock a).Inductive (Sampling (SlowSample validFlags))
      (fun g => True ∧ Unwarped validFlags ti g)
      (fun cpu g w => LockedBy cpu g w ∧ InOrder cpu g w) := by
  refine (cycle_locked pvclock a (Sampling (SlowSample validFlags))).and ?_ ?_ ?_
  · intro cpu e g w g' w' hA _ _ hJ hQ h
    obtain ⟨m, hstep, rfl⟩ := cycle_thread h
    exact inOrder_own hA hJ hQ hstep
  · intro i j e g w g' w' u hA hij _ hP hPu hJ hQ hQu h
    obtain ⟨m, hstep, rfl⟩ := cycle_thread h
    exact inOrder_other hA hij hP hPu hJ hQ hQu hstep
  · intro e g g' _ hJ h
    obtain ⟨hlog, hclock, hti⟩ := cycle_env h
    refine ⟨?_, fun i u _ hQ => ?_⟩
    · unfold Unwarped at hJ ⊢
      rw [hlog, hclock, hti]
      exact hJ
    · unfold InOrder at hQ ⊢
      rw [hclock, hti]
      exact hQ

/-- When every read takes the slow path, no section of any worker computes a negative
`delta`, so `warps` and `worst` stay as they were, and the verdict is 0 from zero warps. -/
theorem slow_cycle_never_warps (a : CycleArgs) (clock : ClockStatics) (ti : TestInfo)
    (hlock : ti.lock = none) (hlast : ti.last ≤ clock.lastValue)
    (hclock : clock.lastValue.toNat < 2 ^ 63) (tr : List (CycleAction pvclock))
    (hslow : ∀ x ∈ samples tr,
      x.ret.toNat < 2 ^ 63 ∧ pathOf clock.validFlags x.flags = .slow)
    (s : CycleState pvclock)
    (hrun : (cycle pvclock a).machine.run (cycleStart pvclock clock ti) tr = some s) :
    (∀ e ∈ s.shared.mem.log, ¬ e.delta < 0) ∧
    (∀ cpu delta, (s.locals cpu).pc = .warpTest delta → ¬ delta < 0) ∧
    s.shared.mem.ti.warps = ti.warps ∧ s.shared.mem.ti.worst = ti.worst ∧
    (ti.warps = 0 → ∀ printed result, s.shared.main = .returned printed result → result = 0) := by
  have htr : ∀ x ∈ tr, Threads.Allowed (Sampling (SlowSample clock.validFlags)) x :=
    allowed_sampling hslow
  have hstart : Threads.Holds (fun g => True ∧ Unwarped clock.validFlags ti g)
      (fun cpu g w => LockedBy cpu g w ∧ InOrder cpu g w) (cycleStart pvclock clock ti) := by
    refine ⟨⟨trivial, ⟨rfl, hclock⟩, hlast, rfl, rfl, by simp [cycleStart]⟩,
      fun cpu => ⟨?_, trivial⟩⟩
    simp [LockedBy, cycleStart, Worker.idle, Pc.holdsLock, hlock]
  obtain ⟨⟨-, -, -, hwarps, hworst, hlog⟩, hlocal⟩ :=
    (cycle_inOrder a clock.validFlags ti).run htr hrun hstart
  refine ⟨hlog, fun cpu delta hpc => ?_, hwarps, hworst, fun hzero printed result hmain => ?_⟩
  · have horder := (hlocal cpu).2
    unfold InOrder at horder
    simpa only [hpc] using horder
  · have hreports := (cycle_joins htr hrun).reports
    rw [hmain] at hreports
    obtain ⟨-, rfl⟩ := hreports
    simp [hwarps, hzero]

/-- A slow read of a worker with samples 10 and 20, and then of one with 15 and 5. -/
theorem slow_cycle_never_warps_inverted :
    ∃ (tr : List (CycleAction pvclock)) (s : CycleState pvclock),
    (cycle pvclock ⟨2, 1, 1, fun _ => true⟩).machine.run
      (cycleStart pvclock ⟨1, 0⟩ TestInfo.zero) tr = some s ∧
    s.shared.main = .returned (some ⟨0, 1, 0⟩) 0 ∧
    samples tr = [⟨10, 0⟩, ⟨20, 0⟩, ⟨15, 0⟩, ⟨5, 0⟩] ∧
    ∀ e ∈ s.shared.mem.log, ¬ e.delta < 0 := by
  obtain ⟨s, hs, hmain⟩ := Option.map_eq_some_iff.mp
    (show ((cycle pvclock ⟨2, 1, 1, fun _ => true⟩).machine.run
      (cycleStart pvclock ⟨1, 0⟩ TestInfo.zero)
      (callerSteps 5 ++ ownSteps 0 4 ++ clockRead 0 ⟨10, 0⟩ 4 ++ ownSteps 0 2 ++
        clockRead 0 ⟨20, 0⟩ 4 ++ ownSteps 0 3 ++ ownSteps 1 4 ++ clockRead 1 ⟨15, 0⟩ 2 ++
        ownSteps 1 2 ++ clockRead 1 ⟨5, 0⟩ 2 ++ ownSteps 1 9 ++ ownSteps 0 4 ++
        callerSteps 5)).map (fun s => s.shared.main) =
        some (.returned (some ⟨0, 1, 0⟩) 0) by decide)
  exact ⟨_, s, hs, hmain, rfl, (slow_cycle_never_warps _ _ _ rfl (by decide) (by decide) _
    (by decide) s hs).1⟩

end PcmTest.Kvmclock
