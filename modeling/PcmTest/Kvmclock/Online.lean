import PcmTest.Kvmclock.Phases

/-!
# CPU counts and CPU numbers

`test_kvm_clock` counts the online CPUs and then addresses the CPUs `0, ..., ncpus - 1`,
and no cross call's return value is looked at. Both agree only on machines whose first
CPUs are all online.
-/

namespace PcmTest.Kvmclock

open Theory

variable {p : Platform} {σ : Statics}

/-- A cross call reaches the CPUs that are online and no others. -/
def onlinePlatform (online : Finset ℕ) (loops : ℕ) : Platform where
  numOnlineCpus := online.card
  loops := loops
  call _ cpu := cpu ∈ online

theorem onlinePlatform_ncpus (online : Finset ℕ) (loops : ℕ) :
    (onlinePlatform online loops).ncpus = min online.card maxCpu := by
  unfold Platform.ncpus onlinePlatform
  dsimp only
  split_ifs <;> omega

/-- The CPUs below `n` that the calls reached are marked. -/
def Marked (n : ℕ) (called marks : ℕ → Bool) : Prop :=
  ∀ cpu, marks cpu = (decide (cpu < n) && called cpu)

theorem marked_succ {n : ℕ} {called marks : ℕ → Bool} (h : Marked n called marks) :
    Marked (n + 1) called (mark (called n) n true marks) := by
  intro cpu
  unfold mark
  rcases lt_trichotomy cpu n with hlt | rfl | hlt
  · split_ifs <;> simp [h cpu, hlt, hlt.ne, Nat.lt_succ_of_lt hlt]
  · split_ifs with hcall <;> simp [h cpu, hcall]
  · split_ifs <;> simp [h cpu, hlt.ne', Nat.not_lt.mpr hlt.le, Nat.not_lt.mpr hlt]

theorem marked_skip {n : ℕ} {called marks : ℕ → Bool} (h : Marked n called marks)
    (hcall : called n = false) : Marked (n + 1) called marks := by
  have hsucc := marked_succ h
  rwa [hcall] at hsucc

/-- What the main thread has done on each CPU. -/
def Prepared (p : Platform) (g : TestMem) : Prop :=
  match g.main with
  | .clockInit i => i ≤ p.ncpus ∧ Marked i (p.call .clockInit) g.registered ∧
      Marked 0 (p.call .wallclock) g.wallclocked
  | .wallclock i => i ≤ p.ncpus ∧ Marked p.ncpus (p.call .clockInit) g.registered ∧
      Marked i (p.call .wallclock) g.wallclocked
  | .wallclockRead i _ _ _ | .wallclockPrint i _ _ =>
      (i < p.ncpus ∧ p.call .wallclock i = true) ∧
        Marked p.ncpus (p.call .clockInit) g.registered ∧
        Marked i (p.call .wallclock) g.wallclocked
  | .setFlags _ | .cycle _ _ => Marked p.ncpus (p.call .clockInit) g.registered ∧
      Marked p.ncpus (p.call .wallclock) g.wallclocked
  | .clockClear _ | .exited => True

theorem prepared_step {g g' : TestMem} {e : TestEvent} (hg : Prepared p g)
    (h : TestStep p g e g') : Prepared p g' := by
  unfold Prepared at hg
  cases h
  case clockInit i hmain hi =>
    rw [hmain] at hg
    exact ⟨hi, marked_succ hg.2.1, hg.2.2⟩
  case clockInitDone i hmain hi =>
    rw [hmain] at hg
    obtain rfl := Nat.le_antisymm hg.1 (Nat.not_lt.mp hi)
    exact ⟨Nat.zero_le _, hg.2⟩
  case wallclockSkip i hmain hi hcall =>
    rw [hmain] at hg
    exact ⟨hi, hg.2.1, marked_skip hg.2.2 hcall⟩
  case wallclockDone i hmain hi =>
    rw [hmain] at hg
    obtain rfl := Nat.le_antisymm hg.1 (Nat.not_lt.mp hi)
    exact hg.2
  case bootTime i sec nsec hmain hi hcall =>
    rw [hmain] at hg
    exact ⟨⟨hi, hcall⟩, hg.2⟩
  case wallclockPrint i ksec c hmain =>
    rw [hmain] at hg
    obtain ⟨⟨hi, hcall⟩, hregistered, hmarked⟩ := hg
    refine ⟨hi, hregistered, ?_⟩
    have hsucc := marked_succ hmarked
    rwa [hcall] at hsucc
  case cycleReturn k printed result hmain =>
    rw [hmain] at hg
    unfold Prepared afterCycle
    dsimp only
    split_ifs
    · exact hg
    · trivial
  all_goals simp_all [Prepared]

/-- In every reachable state the marks follow the place of the main thread. -/
theorem test_prepared {tr : List TestAction} {s : TestState}
    (h : (test p).machine.run (testStart σ) tr = some s) : Prepared p s.shared := by
  have hstart : Prepared p (testStart σ).shared :=
    ⟨Nat.zero_le _, fun cpu => by simp [testStart], fun cpu => by simp [testStart]⟩
  exact test_preserves (Prepared p) hstart (fun _ _ _ hg => hg) (fun _ _ _ hg => prepared_step hg) h

def Pc.isIdle {K : Clock} : Pc K → Bool
  | .idle => true
  | _ => false

/-- A worker of phase `k` was launched on `cpu`: it is pending, or it has started. -/
def launchedOn (s : TestState) (k : Fin 4) (cpu : ℕ) : Bool :=
  (s.shared.phases k).queued cpu || !(s.locals (k, cpu)).pc.isIdle

/-- The number of workers of phase `k` that were launched and have not finished. -/
def running (s : TestState) (k : Fin 4) : ℕ :=
  ((Finset.range maxCpu).filter fun cpu =>
    launchedOn s k cpu = true ∧ (s.locals (k, cpu)).pc.isDone = false).card

/-- Up to `maxCpu` online CPUs, and all of them if there are no more, have a clock
registration, a wallclock test and a worker of phase `k`. -/
def Covered (online : Finset ℕ) (s : TestState) (k : Fin 4) : Prop :=
  ∃ cpus ⊆ online, cpus.card = min online.card maxCpu ∧ ∀ cpu ∈ cpus,
    s.shared.registered cpu = true ∧ s.shared.wallclocked cpu = true ∧ launchedOn s k cpu = true

theorem Pc.isIdle_iff {K : Clock} {pc : Pc K} : pc.isIdle = true ↔ pc = .idle := by
  cases pc <;> simp [Pc.isIdle]

section Wait

variable {online : Finset ℕ} {loops : ℕ} {k : Fin 4} {tr : List TestAction} {s : TestState}

/-- In the wait loop exactly the online CPUs among the addressed ones have a worker. -/
theorem launchedOn_iff
    (hrun : (test (onlinePlatform online loops)).machine.run (testStart σ) tr = some s)
    (hwait : s.shared.main = .cycle k .wait) (cpu : ℕ) :
    launchedOn s k cpu = true ↔ cpu < min online.card maxCpu ∧ cpu ∈ online := by
  obtain ⟨clock, tr', -, htr', hreach⟩ :=
    (test_phases hrun k).active _ hwait
  have hplaced := cycle_reachable_placed htr' hreach
  obtain ⟨hstart, hpend, -⟩ := hplaced.2 cpu
  have hqueued := hplaced.1.1 cpu
  rw [← onlinePlatform_ncpus online loops]
  simp only [launchedOn, Bool.or_eq_true, Bool.not_eq_true', Bool.eq_false_iff, ne_eq,
    Pc.isIdle_iff]
  constructor
  · rintro (hq | hidle)
    · exact ⟨(hqueued hq).1, by simpa [Platform.cycleArgs, onlinePlatform] using (hqueued hq).2⟩
    · obtain ⟨hlt, hcall, -⟩ := hstart hidle
      exact ⟨hlt, by simpa [Platform.cycleArgs, onlinePlatform] using hcall⟩
  · rintro ⟨hlt, hmem⟩
    exact hpend hlt (by simpa [Platform.cycleArgs, onlinePlatform] using hmem)

/-- The counter is above the number of running workers by the number of failed launches. -/
theorem wait_counter
    (hrun : (test (onlinePlatform online loops)).machine.run (testStart σ) tr = some s)
    (hwait : s.shared.main = .cycle k .wait) :
    (s.shared.phases k).ti.ncpus +
        ((Finset.range (min online.card maxCpu)).filter (· ∈ online)).card =
      running s k + (min online.card maxCpu : ℕ) := by
  obtain ⟨clock, tr', -, htr', hreach⟩ :=
    (test_phases hrun k).active _ hwait
  have hcounter := (cycle_joins htr' hreach).counter (by simp [view])
  have hlaunched := launchedOn_iff hrun hwait
  have hncpus := onlinePlatform_ncpus online loops
  let launched := (Finset.range (min online.card maxCpu)).filter (· ∈ online)
  have hdone : finished (min online.card maxCpu) (fun cpu => s.locals (k, cpu)) =
      (launched.filter fun cpu => (s.locals (k, cpu)).pc.isDone = true).card := by
    rw [finished, Threads.total, Finset.sum_boole, Finset.filter_filter]
    congr 2
    ext cpu
    simp only [Finset.mem_filter, Finset.mem_range]
    constructor
    · rintro ⟨hlt, hcpu⟩
      refine ⟨hlt, ((hlaunched cpu).mp ?_).2, hcpu⟩
      rw [Pc.isDone_iff] at hcpu
      simp [launchedOn, hcpu, Pc.isIdle]
    · exact fun h => ⟨h.1, h.2.2⟩
  have hrunning : running s k =
      (launched.filter fun cpu => ¬ (s.locals (k, cpu)).pc.isDone = true).card := by
    unfold running
    congr 1
    ext cpu
    simp only [launched, Finset.mem_filter, Finset.mem_range, hlaunched, Bool.not_eq_true]
    constructor
    · exact fun h => h.2
    · exact fun h => ⟨h.1.1.trans_le (min_le_right _ _), h⟩
  have hsplit := Finset.card_filter_add_card_filter_not (s := launched)
    (fun cpu => (s.locals (k, cpu)).pc.isDone = true)
  simp only [view, Platform.cycleArgs, hncpus] at hcounter
  rw [hdone] at hcounter
  change _ + (launched.card : ℤ) = _
  omega

end Wait

/-- In every state of a wait loop, the counter is the number of launched and unfinished
workers, the loop can exit once these have finished, and up to 64 online CPUs have been
given everything, if and only if the CPUs below `min (number of online CPUs) 64` are all
online. -/
theorem online_covered_iff (online : Finset ℕ) (loops : ℕ) (σ : Statics) (k : Fin 4)
    (tr : List TestAction) (s : TestState)
    (hrun : (test (onlinePlatform online loops)).machine.run (testStart σ) tr = some s)
    (hwait : s.shared.main = .cycle k .wait) :
    ((s.shared.phases k).ti.ncpus = running s k ∧
        (running s k = 0 → (s.shared.phases k).ti.ncpus = 0) ∧ Covered online s k) ↔
      ∀ cpu < min online.card maxCpu, cpu ∈ online := by
  have hcounter := wait_counter hrun hwait
  have hlaunched := launchedOn_iff hrun hwait
  constructor
  · rintro ⟨heq, -, -⟩
    have hcard : ((Finset.range (min online.card maxCpu)).filter (· ∈ online)).card =
        (Finset.range (min online.card maxCpu)).card := by
      rw [Finset.card_range]
      omega
    intro cpu hcpu
    exact Finset.card_filter_eq_iff.mp hcard cpu (Finset.mem_range.mpr hcpu)
  · intro hall
    have hcard : ((Finset.range (min online.card maxCpu)).filter (· ∈ online)).card =
        min online.card maxCpu := by
      rw [Finset.filter_true_of_mem fun cpu hcpu => hall cpu (Finset.mem_range.mp hcpu),
        Finset.card_range]
    have heq : (s.shared.phases k).ti.ncpus = running s k := by omega
    have hprepared := test_prepared hrun
    unfold Prepared at hprepared
    rw [hwait, onlinePlatform_ncpus] at hprepared
    refine ⟨heq, fun hzero => by rw [heq, hzero]; rfl, Finset.range (min online.card maxCpu),
      fun cpu hcpu => hall cpu (Finset.mem_range.mp hcpu), Finset.card_range _, fun cpu hcpu => ?_⟩
    have hlt := Finset.mem_range.mp hcpu
    have honline := hall cpu hlt
    refine ⟨?_, ?_, (hlaunched cpu).mpr ⟨hlt, honline⟩⟩
    · rw [hprepared.1 cpu]
      simp only [onlinePlatform, hlt, honline, decide_true, Bool.and_self]
    · rw [hprepared.2 cpu]
      simp only [onlinePlatform, hlt, honline, decide_true, Bool.and_self]

/-- One CPU, numbered 0. -/
theorem online_covered_iff_single : ∃ (tr : List TestAction) (s : TestState),
    (test (onlinePlatform {0} defaultTestLoops)).machine.run (testStart Statics.zero) tr = some s ∧
    s.shared.main = .cycle 0 .wait ∧ Covered {0} s 0 := by
  obtain ⟨s, hs, hmain⟩ := Option.map_eq_some_iff.mp
    (show ((test (onlinePlatform {0} defaultTestLoops)).machine.run (testStart Statics.zero)
      (prologue ++ (callerSteps 4).map (inPhase 0))).map (fun s => s.shared.main) =
        some (.cycle 0 .wait) by decide)
  exact ⟨_, s, hs, hmain, ((online_covered_iff {0} _ _ 0 _ s hs hmain).mpr (by decide)).2.2⟩

/-- The CPUs 0 and 2 are online: the counter waits for two workers of which one was
launched, and CPU 2 is left out. -/
theorem online_gap : ∃ (tr : List TestAction) (s : TestState),
    (test (onlinePlatform {0, 2} defaultTestLoops)).machine.run (testStart Statics.zero) tr =
      some s ∧
    s.shared.main = .cycle 0 .wait ∧ (s.shared.phases 0).ti.ncpus = 2 ∧ running s 0 = 1 ∧
    s.shared.registered 2 = false ∧ s.shared.wallclocked 2 = false ∧
    launchedOn s 0 2 = false := by
  obtain ⟨s, hs, hread⟩ := Option.map_eq_some_iff.mp
    (show ((test (onlinePlatform {0, 2} defaultTestLoops)).machine.run (testStart Statics.zero)
      (List.replicate 3 (.env .own) ++ [.env (.bootTime 2 0)] ++ mainRead ⟨0, 0⟩ 3 ++
        [.env .own] ++ mainRead ⟨0, 0⟩ 3 ++ List.replicate 4 (.env .own) ++
        (callerSteps 5).map (inPhase 0))).map
        (fun s => (s.shared.main, (s.shared.phases 0).ti.ncpus, running s 0,
          s.shared.registered 2, s.shared.wallclocked 2, launchedOn s 0 2)) =
        some (.cycle 0 .wait, 2, 1, false, false, false) by decide)
  simp only [Prod.mk.injEq] at hread
  exact ⟨_, s, hs, hread⟩

end PcmTest.Kvmclock
