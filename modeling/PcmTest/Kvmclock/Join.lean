import PcmTest.Kvmclock.Phases

/-!
# The wait loop joins the workers

`ncpus` is set before the launches and decremented by each worker as its last access, so
when the wait loop of a phase is left, that phase's workers are through. From then on
nobody touches its `test_info`, and `valid_flags` is only set between phases.
-/

namespace PcmTest.Kvmclock

open Theory

variable {p : Platform} {σ : Statics} {A : Fin 4 → ℕ → WorkerEvent pvclock → Prop}

theorem cycleTest_joined {a : CycleArgs} {q q' : PhaseState pvclock} {pc pc' : CyclePc}
    (hpc : pc.joined = true) (h : cycleTest a q pc = some (q', pc')) :
    q' = q ∧ pc'.joined = true := by
  cases cycleTest_step h <;> simp_all [CyclePc.joined]

/-- In every phase the workers are idle or done, unless it is the phase of the main thread
and has not been joined. -/
theorem workers_settled {k : Fin 4} {s : TestState} (hs : PhaseInv p σ A k s)
    (hmain : ∀ pc, s.shared.main = .cycle k pc → pc.joined = true) (cpu : ℕ) :
    (s.locals (k, cpu)).pc = .done ∨
      (s.locals (k, cpu)).pc = .idle ∧ (s.shared.phases k).queued cpu = false := by
  by_cases hactive : ∃ pc, s.shared.main = .cycle k pc
  · obtain ⟨pc, hpc⟩ := hactive
    obtain ⟨clock, tr, -, htr, hrun⟩ := hs.active pc hpc
    exact joined_still htr hrun (hmain pc hpc) cpu
  · push Not at hactive
    rcases Nat.lt_or_ge k s.shared.main.completed with hlt | hge
    · obtain ⟨clock, printed, result, ⟨clock₀, tr, -, htr, hrun⟩, -⟩ := hs.completed hlt
      exact joined_still htr hrun rfl cpu
    · obtain ⟨hphase, hidle⟩ := hs.fresh hge hactive
      refine .inr ⟨?_, ?_⟩
      · rw [hidle cpu]
        rfl
      · rw [hphase]

/-- Phase `k` has been joined and its `test_info` holds `ti`. -/
def Settled (k : Fin 4) (ti : TestInfo) (s : TestState) : Prop :=
  (s.shared.phases k).ti = ti ∧
    (k < s.shared.main.completed ∨ ∃ pc, s.shared.main = .cycle k pc ∧ pc.joined = true)

theorem settled_joined {k : Fin 4} {ti : TestInfo} {s : TestState} (hs : Settled k ti s) :
    ∀ pc, s.shared.main = .cycle k pc → pc.joined = true := by
  intro pc hpc
  rcases hs.2 with hlt | ⟨pc', hpc', hjoined⟩
  · simp [hpc, TestPc.completed] at hlt
  · cases hpc.symm.trans hpc'
    exact hjoined

theorem settled_step {k : Fin 4} {ti : TestInfo} {s t : TestState} {x : TestAction}
    (hinv : ∀ j, PhaseInv p σ A j s) (hs : Settled k ti s)
    (h : (test p).machine.step s x = some t) : Settled k ti t := by
  have hjoined := settled_joined hs
  obtain ⟨hti, hplace⟩ := hs
  cases x with
  | thread i e =>
    obtain ⟨j, cpu⟩ := i
    obtain ⟨g, w, hw, rfl⟩ := Threads.thread_step h
    obtain ⟨m, hm, rfl⟩ := test_thread hw
    have hjk : k ≠ j := by
      rintro rfl
      exact still_no_step (workers_settled (hinv k) hjoined cpu) (kvmClockTest_step hm)
    refine ⟨?_, hplace⟩
    dsimp only
    rwa [Function.update_of_ne hjk]
  | env e =>
    obtain ⟨g, hg, rfl⟩ := Threads.env_step h
    rcases testStep_cases (testKvmClock_step hg) with ⟨j, hmain, rfl⟩ |
      ⟨j, pc, q, pc', hmain, hcycle, rfl⟩ | ⟨j, printed, result, hmain, rfl⟩ | hout
    · refine ⟨hti, .inl ?_⟩
      simpa [hmain, TestPc.completed] using hplace
    · by_cases hjk : k = j
      · subst hjk
        obtain ⟨rfl, hpc'⟩ := cycleTest_joined (hjoined pc hmain) hcycle
        exact ⟨by simpa using hti, .inr ⟨pc', rfl, hpc'⟩⟩
      · refine ⟨?_, .inl ?_⟩
        · dsimp only
          rwa [Function.update_of_ne hjk]
        · rcases hplace with hlt | ⟨pc'', hpc'', -⟩
          · simpa [hmain, TestPc.completed] using hlt
          · cases hmain.symm.trans hpc''
            exact absurd rfl hjk
    · refine ⟨hti, .inl ?_⟩
      dsimp only
      rw [(afterCycle_main j printed result s.shared).2]
      rcases hplace with hlt | ⟨pc, hpc, -⟩
      · rw [hmain] at hlt
        exact Nat.lt_succ_of_lt hlt
      · cases hmain.symm.trans hpc
        exact Nat.lt_succ_self _
    · refine ⟨?_, .inl ?_⟩
      · dsimp only
        rw [hout.phases]
        exact hti
      · dsimp only
        rw [hout.completed]
        refine hplace.resolve_right ?_
        rintro ⟨pc, hpc, -⟩
        exact hout.before k pc hpc

/-- What a joined phase has in its `test_info` stays. -/
theorem settled_run {k : Fin 4} {ti : TestInfo} {tr : List TestAction} {s t : TestState}
    (hinv : ∀ j, PhaseInv p σ (fun _ _ _ => True) j s) (hs : Settled k ti s)
    (h : (test p).machine.run s tr = some t) : Settled k ti t := by
  have hstep : ∀ u x v, True →
      (∀ j, PhaseInv p σ (fun _ _ _ => True) j u) ∧ Settled k ti u →
      (test p).machine.step u x = some v →
      (∀ j, PhaseInv p σ (fun _ _ _ => True) j v) ∧ Settled k ti v := by
    rintro u x v - ⟨hu, hsettled⟩ hstep
    refine ⟨?_, settled_step hu hsettled hstep⟩
    cases x with
    | thread i e => exact phaseInv_thread trivial hu hstep
    | env e => exact phaseInv_env hu hstep
  exact (Machine.run_preserves _ (fun _ => True) hstep (fun _ _ => trivial) ⟨hinv, hs⟩ h).2

/-- Only the steps between phases change `valid_flags`. -/
theorem validFlags_step {s t : TestState} {x : TestAction}
    (h : (test p).machine.step s x = some t)
    (hne : t.shared.clock.validFlags ≠ s.shared.clock.validFlags) :
    ∃ k, s.shared.main = .setFlags k := by
  cases x with
  | thread i e =>
    obtain ⟨g, w, hw, rfl⟩ := Threads.thread_step h
    obtain ⟨m, hm, rfl⟩ := test_thread hw
    exact absurd (kvmClockTest_validFlags hm) hne
  | env e =>
    obtain ⟨g, hg, rfl⟩ := Threads.env_step h
    rcases testStep_cases (testKvmClock_step hg) with ⟨j, hmain, rfl⟩ |
      ⟨j, pc, q, pc', hmain, hcycle, rfl⟩ | ⟨j, printed, result, hmain, rfl⟩ | hout
    · exact ⟨j, hmain⟩
    · exact absurd rfl hne
    · exact absurd rfl hne
    · exact absurd hout.validFlags hne

/-- The counter of a phase counts its unfinished workers. When the wait loop is left they
have all run all their iterations, and nothing that `cycle_test` has printed changes in any
later state. When the flags are set, no worker of any phase is under way. -/
theorem wait_exit_joins_workers (p : Platform) (σ : Statics) (tr : List TestAction) (s : TestState)
    (hrun : (test p).machine.run (testStart σ) tr = some s) :
    (∀ k pc, s.shared.main = .cycle k pc → pc ≠ .setNcpus →
      (s.shared.phases k).ti.ncpus + finished p.ncpus (fun cpu => s.locals (k, cpu)) = p.ncpus) ∧
    (∀ k pc, s.shared.main = .cycle k pc → pc.joined = true →
      (∀ cpu < p.ncpus, (s.locals (k, cpu)).pc = .done ∧ (s.locals (k, cpu)).i = p.loops) ∧
      ∀ tr' t, (test p).machine.run s tr' = some t →
        (t.shared.phases k).ti = (s.shared.phases k).ti ∧
          pc.Reports (p.cycleArgs k) (t.shared.phases k).ti) ∧
    (∀ x t, (test p).machine.step s x = some t →
      t.shared.clock.validFlags ≠ s.shared.clock.validFlags →
      ∃ k, s.shared.main = .setFlags k) ∧
    (∀ j, s.shared.main = .setFlags j →
      ∀ k cpu, (s.locals (k, cpu)).pc = .idle ∨ (s.locals (k, cpu)).pc = .done) := by
  have hinv := test_phases hrun
  refine ⟨fun k pc hpc hset => ?_, fun k pc hpc hjoined => ⟨fun cpu hcpu => ?_, fun tr' t ht => ?_⟩,
    fun x t hstep hne => validFlags_step hstep hne, fun j hj k cpu => ?_⟩
  · obtain ⟨clock, tr', -, htr', hreach⟩ := (hinv k).active pc hpc
    exact (cycle_joins htr' hreach).counter hset
  · obtain ⟨clock, tr', -, htr', hreach⟩ := (hinv k).active pc hpc
    have hdone := (cycle_joins htr' hreach).joined hjoined cpu hcpu
    have hloop := ((cycle_reachable_placed htr' hreach).2 cpu).2.2.2
    unfold Worker.InLoop at hloop
    rw [hdone] at hloop
    exact ⟨hdone, hloop⟩
  · obtain ⟨clock, tr'', -, htr'', hreach⟩ := (hinv k).active pc hpc
    have hsettled : Settled k (s.shared.phases k).ti s := ⟨rfl, .inr ⟨pc, hpc, hjoined⟩⟩
    have hti := (settled_run hinv hsettled ht).1
    exact ⟨hti, hti ▸ (cycle_joins htr'' hreach).reports⟩
  · have hpc : ∀ pc, s.shared.main = .cycle k pc → pc.joined = true := by simp [hj]
    exact (workers_settled (hinv k) hpc cpu).symm.imp_left fun h => h.1

/-- `wallclock_test` on a CPU whose clock stands at zero. -/
def wallclockSteps : List TestAction :=
  [.env (.bootTime 2 0)] ++ mainRead ⟨0, 0⟩ 3 ++ [.env .own] ++ mainRead ⟨0, 0⟩ 3 ++ [.env .own]

/-- The main thread up to the first `cycle_test`, on two CPUs. -/
def prologueTwo : List TestAction :=
  List.replicate 3 (.env .own) ++ (wallclockSteps ++ wallclockSteps) ++
    List.replicate 2 (.env .own)

/-- The first phase on two CPUs, up to the return of `cycle_test`. -/
theorem wait_exit_joins_workers_first : ∃ (tr : List TestAction) (s : TestState),
    (test ⟨2, 1, fun _ _ => true⟩).machine.run (testStart Statics.zero) tr = some s ∧
    s.shared.main = .cycle 0 (.verdict (some ⟨0, 0, 0⟩)) ∧
    ∀ cpu < 2, (s.locals (0, cpu)).pc = .done ∧ (s.locals (0, cpu)).i = 1 := by
  obtain ⟨s, hs, hmain⟩ := Option.map_eq_some_iff.mp
    (show ((test ⟨2, 1, fun _ _ => true⟩).machine.run (testStart Statics.zero)
      (prologueTwo ++ (callerSteps 5 ++ ownSteps 0 2 ++ ownSteps 1 2 ++ fastSection 0 10 20 ++
        ownSteps 0 3 ++ fastSection 1 30 40 ++ ownSteps 1 3 ++ callerSteps 4).map
        (inPhase 0))).map (fun s => s.shared.main) =
        some (.cycle 0 (.verdict (some ⟨0, 0, 0⟩))) by decide +kernel)
  have hjoins := wait_exit_joins_workers ⟨2, 1, fun _ _ => true⟩ Statics.zero _ s hs
  exact ⟨_, s, hs, hmain, (hjoins.2.1 0 _ hmain rfl).1⟩

end PcmTest.Kvmclock
