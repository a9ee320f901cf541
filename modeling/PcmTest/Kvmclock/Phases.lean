import PcmTest.Kvmclock.TestKvmClock

/-!
# Each phase is a call of cycle_test

Seen from one phase, a run of `test_kvm_clock` is a run of `cycle_test`: before the phase
its workers are idle, during it no other phase's worker can move, and after it neither
can its own.
-/

namespace PcmTest.Kvmclock

open Theory

/-- The part of the state that belongs to phase `k`, with a place for its `cycle_test` and
a clock. -/
def view (k : Fin 4) (pc : CyclePc) (clock : ClockStatics) (s : TestState) :
    CycleState pvclock where
  shared := ⟨⟨s.shared.phases k, clock⟩, pc⟩
  locals cpu := s.locals (k, cpu)

variable {p : Platform} {σ : Statics} {A : Fin 4 → ℕ → WorkerEvent pvclock → Prop}

/-- A state of the phase's `cycle_test`, reached by allowed steps from the statics under
the flags of the phase. -/
def Reached (p : Platform) (σ : Statics) (A : Fin 4 → ℕ → WorkerEvent pvclock → Prop) (k : Fin 4)
    (c : CycleState pvclock) : Prop :=
  ∃ clock tr, clock.validFlags = phaseFlags k ∧ (∀ x ∈ tr, Threads.Allowed (A k) x) ∧
    (cycle pvclock (p.cycleArgs k)).machine.run (cycleStart pvclock clock (σ.ti k)) tr = some c

/-- What the place of the main thread says about phase `k`. -/
structure PhaseInv (p : Platform) (σ : Statics) (A : Fin 4 → ℕ → WorkerEvent pvclock → Prop)
    (k : Fin 4) (s : TestState) : Prop where
  fresh : s.shared.main.completed ≤ k → (∀ pc, s.shared.main ≠ .cycle k pc) →
    s.shared.phases k = ⟨σ.ti k, fun _ => false, []⟩ ∧
      ∀ cpu, s.locals (k, cpu) = Worker.idle pvclock
  active : ∀ pc, s.shared.main = .cycle k pc →
    Reached p σ A k (view k pc s.shared.clock s)
  completed : k < s.shared.main.completed → ∃ clock printed result,
    Reached p σ A k (view k (.returned printed result) clock s) ∧
      s.shared.results k = some (printed, result)

/-- A launched worker is done after the wait loop, and others never start. -/
theorem joined_still {a : CycleArgs} {B : ℕ → WorkerEvent pvclock → Prop} {clock : ClockStatics}
    {ti : TestInfo} {tr : List (CycleAction pvclock)} {c : CycleState pvclock}
    (htr : ∀ x ∈ tr, Threads.Allowed B x)
    (h : (cycle pvclock a).machine.run (cycleStart pvclock clock ti) tr = some c)
    (hjoined : c.shared.main.joined = true) (cpu : ℕ) :
    (c.locals cpu).pc = .done ∨
      (c.locals cpu).pc = .idle ∧ c.shared.mem.queued cpu = false := by
  have hplaced := cycle_reachable_placed htr h
  by_cases hcpu : cpu < a.ncpus
  · exact .inl ((cycle_joins htr h).joined hjoined cpu hcpu)
  · refine .inr ⟨?_, ?_⟩
    · by_contra hidle
      exact hcpu (passed_lt ((hplaced.2 cpu).1 hidle).1)
    · by_contra hqueued
      exact hcpu (passed_lt (hplaced.1.1 cpu (by simpa using hqueued)).1)

theorem still_no_step {loops cpu : ℕ} {m m' : Mem pvclock} {w w' : Worker pvclock}
    {e : WorkerEvent pvclock} (hw : w.pc = .done ∨ w.pc = .idle ∧ m.queued cpu = false)
    (h : WorkerStep loops cpu m w e m' w') : False := by
  cases h <;> simp_all

/-- Only the workers of the active phase move. -/
theorem worker_active {k : Fin 4} {cpu : ℕ} {s : TestState} {e : WorkerEvent pvclock}
    {m : Mem pvclock} {w : Worker pvclock} (hs : PhaseInv p σ A k s)
    (h : WorkerStep p.loops cpu ⟨s.shared.phases k, s.shared.clock⟩ (s.locals (k, cpu)) e m w) :
    ∃ pc, s.shared.main = .cycle k pc := by
  by_contra hmain
  push Not at hmain
  rcases Nat.lt_or_ge k s.shared.main.completed with hlt | hge
  · obtain ⟨clock, printed, result, ⟨clock₀, tr, -, htr, hrun⟩, -⟩ := hs.completed hlt
    have hstill : (s.locals (k, cpu)).pc = .done ∨
        (s.locals (k, cpu)).pc = .idle ∧ (s.shared.phases k).queued cpu = false :=
      joined_still htr hrun rfl cpu
    exact still_no_step hstill h
  · obtain ⟨hphase, hidle⟩ := hs.fresh hge hmain
    refine still_no_step (.inr ⟨?_, ?_⟩) h
    · rw [hidle cpu]
      rfl
    · dsimp only
      rw [hphase]

/-- A step that leaves phase `k` alone keeps what is known of it. -/
theorem phaseInv_frame {k : Fin 4} {s t : TestState} (hs : PhaseInv p σ A k s)
    (hphase : t.shared.phases k = s.shared.phases k)
    (hlocals : ∀ cpu, t.locals (k, cpu) = s.locals (k, cpu))
    (hresults : t.shared.results k = s.shared.results k)
    (hactive : ∀ pc, s.shared.main ≠ .cycle k pc) (hactive' : ∀ pc, t.shared.main ≠ .cycle k pc)
    (hcompleted : k < t.shared.main.completed ↔ k < s.shared.main.completed) :
    PhaseInv p σ A k t := by
  have hview : ∀ pc clock, view k pc clock t = view k pc clock s := by
    intro pc clock
    simp only [view, hphase, hlocals]
  refine ⟨fun hle _ => ?_, fun pc hpc => absurd hpc (hactive' pc), fun hlt => ?_⟩
  · obtain ⟨hfresh, hidle⟩ :=
      hs.fresh (Nat.not_lt.mp fun hlt => Nat.not_lt.mpr hle (hcompleted.mpr hlt)) hactive
    exact ⟨hphase.trans hfresh, fun cpu => (hlocals cpu).trans (hidle cpu)⟩
  · obtain ⟨clock, printed, result, hreached, hresult⟩ := hs.completed (hcompleted.mp hlt)
    exact ⟨clock, printed, result, hview _ _ ▸ hreached, hresults.trans hresult⟩

theorem reached_step {k : Fin 4} {c c' : CycleState pvclock} {x : CycleAction pvclock}
    (hx : Threads.Allowed (A k) x) (hc : Reached p σ A k c)
    (h : (cycle pvclock (p.cycleArgs k)).machine.step c x = some c') : Reached p σ A k c' := by
  obtain ⟨clock, tr, hflags, htr, hrun⟩ := hc
  refine ⟨clock, tr ++ [x], hflags, fun y hy => ?_, Machine.run_trans hrun (Machine.run_single h)⟩
  rcases List.mem_append.mp hy with hy | hy
  · exact htr y hy
  · rw [List.mem_singleton.mp hy]
    exact hx

theorem completed_lt_of_cycle {j k : Fin 4} {pc : CyclePc} (hjk : k ≠ j) :
    (k : ℕ) < (j : ℕ) + 1 ↔ (k : ℕ) < (TestPc.cycle j pc).completed := by
  have hne : (k : ℕ) ≠ j := fun h => hjk (Fin.ext h)
  simp only [TestPc.completed]
  omega

theorem view_thread {k : Fin 4} {cpu : ℕ} {pc : CyclePc} {s : TestState}
    {e : WorkerEvent pvclock} {m : Mem pvclock} {w : Worker pvclock}
    (h : kvmClockTest p.loops cpu ⟨s.shared.phases k, s.shared.clock⟩ (s.locals (k, cpu)) e =
      some (m, w)) :
    (cycle pvclock (p.cycleArgs k)).machine.step (view k pc s.shared.clock s) (.thread cpu e) =
      some (view k pc m.clock
        ⟨{ s.shared with
            phases := Function.update s.shared.phases k m.toPhaseState, clock := m.clock },
          Function.update s.locals (k, cpu) w⟩) := by
  have hlocals : (fun c => Function.update s.locals (k, cpu) w (k, c)) =
      Function.update (fun c => s.locals (k, c)) cpu w := by
    funext c
    by_cases hc : c = cpu
    · subst hc
      simp
    · simp [hc]
  have hwork : (cycle pvclock (p.cycleArgs k)).thread cpu e
      (view k pc s.shared.clock s).shared (s.locals (k, cpu)) = some (⟨m, pc⟩, w) := by
    simp only [cycle, view, Platform.cycleArgs, h, Option.map_some]
  simp only [Threads.machine, view] at hwork ⊢
  rw [hwork, hlocals]
  simp

theorem phaseInv_thread {j : Fin 4} {cpu : ℕ} {e : WorkerEvent pvclock} {s t : TestState}
    (hA : A j cpu e) (hs : ∀ k, PhaseInv p σ A k s)
    (h : (test p).machine.step s (.thread (j, cpu) e) = some t) : ∀ k, PhaseInv p σ A k t := by
  intro k
  obtain ⟨g, w, hw, rfl⟩ := Threads.thread_step h
  obtain ⟨m, hm, rfl⟩ := test_thread hw
  obtain ⟨pc, hpc⟩ := worker_active (hs j) (kvmClockTest_step hm)
  by_cases hjk : k = j
  · subst hjk
    refine ⟨fun _ hne => absurd hpc (hne pc), fun pc' hpc' => ?_, fun hlt => ?_⟩
    · cases hpc.symm.trans hpc'
      exact reached_step (x := .thread cpu e) hA ((hs k).active pc hpc) (view_thread hm)
    · simp [hpc, TestPc.completed] at hlt
  · have hother : ∀ pc', s.shared.main ≠ .cycle k pc' := by
      intro pc' hpc'
      cases hpc.symm.trans hpc'
      exact hjk rfl
    refine phaseInv_frame (hs k) ?_ ?_ rfl hother hother Iff.rfl
    · exact Function.update_of_ne hjk _ _
    · intro c
      exact Function.update_of_ne (fun hc => hjk (Prod.ext_iff.mp hc).1) _ _

/-- A step of the main thread outside the calls of `cycle_test`. -/
structure Outside (g g' : TestMem) : Prop where
  before : ∀ k pc, g.main ≠ .cycle k pc
  after : ∀ k pc, g'.main ≠ .cycle k pc
  completed : g'.main.completed = g.main.completed
  phases : g'.phases = g.phases
  results : g'.results = g.results
  console : g'.console = g.console
  validFlags : g'.clock.validFlags = g.clock.validFlags

theorem testStep_cases {g g' : TestMem} {e : TestEvent} (h : TestStep p g e g') :
    (∃ k, g.main = .setFlags k ∧ g' =
      { g with clock := pvclockSetFlags (phaseFlags k) g.clock, main := .cycle k .setNcpus }) ∨
    (∃ k pc q pc', g.main = .cycle k pc ∧
      cycleTest (p.cycleArgs k) (g.phases k) pc = some (q, pc') ∧
      g' = { g with phases := Function.update g.phases k q, main := .cycle k pc' }) ∨
    (∃ k printed result, g.main = .cycle k (.returned printed result) ∧
      g' = afterCycle k printed result g) ∨ Outside g g' := by
  cases h
  case setFlags k hmain => exact .inl ⟨k, hmain, rfl⟩
  case cycle k pc q pc' hmain hcycle => exact .inr (.inl ⟨k, pc, q, pc', hmain, hcycle, rfl⟩)
  case cycleReturn k printed result hmain =>
    exact .inr (.inr (.inl ⟨k, printed, result, hmain, rfl⟩))
  case wallclockRead i sec nsec c e clock c' hmain hread =>
    refine .inr (.inr (.inr ⟨?_, ?_, ?_, rfl, rfl, rfl, ?_⟩))
    · simp [hmain]
    · simp
    · simp [hmain, TestPc.completed]
    · exact pvclockClocksourceRead_validFlags hread
  case wallclockPrintRead i ksec c e clock c' hmain hread =>
    refine .inr (.inr (.inr ⟨?_, ?_, ?_, rfl, rfl, rfl, ?_⟩))
    · simp [hmain]
    · simp
    · simp [hmain, TestPc.completed]
    · exact pvclockClocksourceRead_validFlags hread
  all_goals
    refine .inr (.inr (.inr ⟨?_, ?_, ?_, rfl, rfl, rfl, rfl⟩))
    · simp [*]
    · simp
    · simp [*, TestPc.completed]

theorem afterCycle_main (k : Fin 4) (printed : Option Totals) (result : ℤ) (g : TestMem) :
    (∀ j pc, (afterCycle k printed result g).main ≠ .cycle j pc) ∧
      (afterCycle k printed result g).main.completed = k + 1 := by
  unfold afterCycle
  dsimp only
  split_ifs with hlt
  · exact ⟨by simp, rfl⟩
  · refine ⟨by simp, ?_⟩
    simp only [TestPc.completed]
    omega

/-- The flags of phase `j` are set and its `cycle_test` is called. -/
theorem phaseInv_setFlags {j : Fin 4} {s : TestState} (hs : ∀ k, PhaseInv p σ A k s)
    (hmain : s.shared.main = .setFlags j) (k : Fin 4) :
    PhaseInv p σ A k ⟨{ s.shared with
      clock := pvclockSetFlags (phaseFlags j) s.shared.clock, main := .cycle j .setNcpus },
      s.locals⟩ := by
  by_cases hjk : k = j
  · subst hjk
    obtain ⟨hphase, hidle⟩ := (hs k).fresh (by simp [hmain, TestPc.completed]) (by simp [hmain])
    refine ⟨fun _ hne => absurd rfl (hne _), fun pc hpc => ?_, fun hlt => ?_⟩
    · cases hpc
      refine ⟨pvclockSetFlags (phaseFlags k) s.shared.clock, [], rfl, by simp, ?_⟩
      simp [Machine.run, view, cycleStart, hphase, hidle]
    · simp [TestPc.completed] at hlt
  · refine phaseInv_frame (hs k) rfl (fun _ => rfl) rfl (by simp [hmain]) ?_ ?_
    · intro pc hpc
      cases hpc
      exact hjk rfl
    · simp [hmain, TestPc.completed]

/-- The `cycle_test` of phase `j` takes a step. -/
theorem phaseInv_cycle {j : Fin 4} {pc pc' : CyclePc} {q : PhaseState pvclock} {s : TestState}
    (hs : ∀ k, PhaseInv p σ A k s) (hmain : s.shared.main = .cycle j pc)
    (hcycle : cycleTest (p.cycleArgs j) (s.shared.phases j) pc = some (q, pc')) (k : Fin 4) :
    PhaseInv p σ A k ⟨{ s.shared with
      phases := Function.update s.shared.phases j q, main := .cycle j pc' }, s.locals⟩ := by
  by_cases hjk : k = j
  · subst hjk
    refine ⟨fun _ hne => absurd rfl (hne _), fun pc'' hpc => ?_, fun hlt => ?_⟩
    · cases hpc
      refine reached_step (x := .env ()) trivial ((hs k).active pc hmain) ?_
      simp [Threads.machine, cycle, view, hcycle]
    · simp [TestPc.completed] at hlt
  · refine phaseInv_frame (hs k) ?_ (fun _ => rfl) rfl ?_ ?_ ?_
    · exact Function.update_of_ne hjk _ _
    · intro pc'' hpc
      cases hmain.symm.trans hpc
      exact hjk rfl
    · intro pc'' hpc
      cases hpc
      exact hjk rfl
    · simp [hmain, TestPc.completed]

/-- The `cycle_test` of phase `j` returns. -/
theorem phaseInv_return {j : Fin 4} {printed : Option Totals} {result : ℤ} {s : TestState}
    (hs : ∀ k, PhaseInv p σ A k s) (hmain : s.shared.main = .cycle j (.returned printed result))
    (k : Fin 4) : PhaseInv p σ A k ⟨afterCycle j printed result s.shared, s.locals⟩ := by
  obtain ⟨hmain', hcompleted⟩ := afterCycle_main j printed result s.shared
  by_cases hjk : k = j
  · subst hjk
    refine ⟨fun hle => ?_, fun pc hpc => absurd hpc (hmain' k pc), fun _ => ?_⟩
    · dsimp only at hle
      omega
    · exact ⟨s.shared.clock, printed, result, (hs k).active _ hmain, by simp [afterCycle]⟩
  · refine phaseInv_frame (hs k) rfl (fun _ => rfl) ?_ ?_ (hmain' k) ?_
    · exact Function.update_of_ne hjk _ _
    · intro pc hpc
      cases hmain.symm.trans hpc
      exact hjk rfl
    · dsimp only
      rw [hcompleted, hmain]
      exact completed_lt_of_cycle hjk

theorem phaseInv_env {e : TestEvent} {s t : TestState} (hs : ∀ k, PhaseInv p σ A k s)
    (h : (test p).machine.step s (.env e) = some t) : ∀ k, PhaseInv p σ A k t := by
  intro k
  obtain ⟨g, hg, rfl⟩ := Threads.env_step h
  rcases testStep_cases (testKvmClock_step hg) with ⟨j, hmain, rfl⟩ |
    ⟨j, pc, q, pc', hmain, hcycle, rfl⟩ | ⟨j, printed, result, hmain, rfl⟩ | hout
  · exact phaseInv_setFlags hs hmain k
  · exact phaseInv_cycle hs hmain hcycle k
  · exact phaseInv_return hs hmain k
  · refine phaseInv_frame (hs k) ?_ (fun _ => rfl) ?_ (hout.before k) (hout.after k) ?_
    · exact congrFun hout.phases k
    · exact congrFun hout.results k
    · dsimp only
      rw [hout.completed]

theorem testStart_phaseInv (p : Platform) (σ : Statics)
    (A : Fin 4 → ℕ → WorkerEvent pvclock → Prop) (k : Fin 4) :
    PhaseInv p σ A k (testStart σ) :=
  ⟨fun _ _ => ⟨rfl, fun _ => rfl⟩, by simp [testStart], by simp [testStart, TestPc.completed]⟩

/-- In every reachable state of `test_kvm_clock` each phase is where the main thread says. -/
theorem test_phaseInv {tr : List TestAction} {s : TestState}
    (htr : ∀ x ∈ tr, Threads.Allowed (fun i e => A i.1 i.2 e) x)
    (h : (test p).machine.run (testStart σ) tr = some s) (k : Fin 4) : PhaseInv p σ A k s := by
  refine Machine.run_preserves (fun u => ∀ k, PhaseInv p σ A k u)
    (Threads.Allowed fun i e => A i.1 i.2 e) ?_ htr (testStart_phaseInv p σ A) h k
  intro u x v hx hu hstep
  cases x with
  | thread i e => exact phaseInv_thread hx hu hstep
  | env e => exact phaseInv_env hu hstep

theorem test_phases {tr : List TestAction} {s : TestState}
    (h : (test p).machine.run (testStart σ) tr = some s) (k : Fin 4) :
    PhaseInv p σ (fun _ _ _ => True) k s :=
  test_phaseInv (Threads.allowed_true tr) h k

/-- What the main thread keeps, and the workers cannot touch, holds in every reachable state. -/
theorem test_preserves (P : TestMem → Prop) (hstart : P (testStart σ).shared)
    (hworker : ∀ g phases clock, P g → P { g with phases := phases, clock := clock })
    (hmain : ∀ g e g', P g → TestStep p g e g' → P g') {tr : List TestAction} {s : TestState}
    (h : (test p).machine.run (testStart σ) tr = some s) : P s.shared := by
  refine Machine.run_preserves (fun u : TestState => P u.shared) (fun _ => True) ?_
    (fun _ _ => trivial) hstart h
  intro u x v _ hu hstep
  cases x with
  | thread i e =>
    obtain ⟨g, w, hw, rfl⟩ := Threads.thread_step hstep
    obtain ⟨m, -, rfl⟩ := test_thread hw
    exact hworker _ _ _ hu
  | env e =>
    obtain ⟨g, hg, rfl⟩ := Threads.env_step hstep
    exact hmain _ e g hu (testKvmClock_step hg)

/-! ## Samples and console -/

/-- The samples that the workers of phase `k` take. -/
def phaseSamples (k : Fin 4) (tr : List TestAction) : List Sample :=
  tr.filterMap fun x =>
    match x with
    | .thread (j, _) (.clock (.sample x)) => if j = k then some x else none
    | _ => none

/-- Steps whose samples in phase `k` are in `Q`. -/
def PhaseSampling (k : Fin 4) (Q : Sample → Prop) (j : Fin 4) (cpu : ℕ) (e : WorkerEvent pvclock) :
    Prop :=
  j = k → Sampling Q cpu e

theorem allowed_phaseSampling {k : Fin 4} {Q : Sample → Prop} {tr : List TestAction}
    (h : ∀ x ∈ phaseSamples k tr, Q x) :
    ∀ x ∈ tr, Threads.Allowed (fun i e => PhaseSampling k Q i.1 i.2 e) x := by
  intro x hx
  cases x with
  | thread i e =>
    obtain ⟨j, cpu⟩ := i
    rintro rfl y rfl
    exact h y (List.mem_filterMap.mpr ⟨_, hx, by simp⟩)
  | env e => trivial

theorem reported_env {g g' : TestMem} {e : TestEvent} (hg : Reported g) (h : TestStep p g e g') :
    Reported g' := by
  rcases testStep_cases h with ⟨j, hmain, rfl⟩ | ⟨j, pc, q, pc', hmain, hcycle, rfl⟩ |
    ⟨j, printed, result, hmain, rfl⟩ | hout
  · simpa [Reported, hmain, TestPc.completed] using hg
  · simpa [Reported, hmain, TestPc.completed] using hg
  · unfold Reported
    rw [(afterCycle_main j printed result g).2]
    refine ⟨fun h => absurd h (Nat.succ_ne_zero _), fun _ => ?_⟩
    unfold Reported at hg
    rw [hmain] at hg
    by_cases hj : j = 0
    · subst hj
      exact ⟨printed, result, by simp [afterCycle], by simp [afterCycle, hg.1 rfl]⟩
    · have hpos : 0 < (TestPc.cycle j (.returned printed result)).completed :=
        Nat.pos_of_ne_zero fun h => hj (Fin.ext h)
      obtain ⟨printed', result', hresult, hconsole⟩ := hg.2 hpos
      exact ⟨printed', result', by simp [afterCycle, Ne.symm hj, hresult],
        by simp [afterCycle, hj, hconsole]⟩
  · unfold Reported at hg ⊢
    rw [hout.completed, hout.console, hout.results]
    exact hg

theorem test_reported {tr : List TestAction} {s : TestState}
    (h : (test p).machine.run (testStart σ) tr = some s) : Reported s.shared := by
  have hstart : Reported (testStart σ).shared := by
    simp [Reported, testStart, TestPc.completed]
  exact test_preserves Reported hstart (fun _ _ _ hg => hg) (fun _ _ _ hg => reported_env hg) h

/-! ## From the call back to the test -/

/-- The state of a phase's `cycle_test` put into the state of the test. -/
def place (k : Fin 4) (c : CycleState pvclock) (s : TestState) : TestState where
  shared := { s.shared with
    clock := c.shared.mem.clock
    phases := Function.update s.shared.phases k c.shared.mem.toPhaseState
    main := .cycle k c.shared.main }
  locals i := if i.1 = k then c.locals i.2 else s.locals i

theorem place_view {k : Fin 4} {pc : CyclePc} {s : TestState}
    (hmain : s.shared.main = .cycle k pc) :
    place k (view k pc s.shared.clock s) s = s := by
  obtain ⟨g, ws⟩ := s
  have hlocals : (fun i : Fin 4 × ℕ => if i.1 = k then ws (k, i.2) else ws i) = ws := by
    funext ⟨j, cpu⟩
    by_cases hjk : j = k
    · simp [hjk]
    · simp [hjk]
  simp only [place, view, Function.update_eq_self, hlocals]
  dsimp only at hmain
  rw [← hmain]

theorem place_step {k : Fin 4} {c c' : CycleState pvclock} {x : CycleAction pvclock}
    (h : (cycle pvclock (p.cycleArgs k)).machine.step c x = some c') (s : TestState) :
    (test p).machine.step (place k c s) (inPhase k x) = some (place k c' s) := by
  cases x with
  | thread cpu e =>
    obtain ⟨g, w, hw, rfl⟩ := Threads.thread_step h
    obtain ⟨⟨m, u⟩, hm, he⟩ := Option.map_eq_some_iff.mp hw
    cases he
    have hwork : kvmClockTest p.loops cpu c.shared.mem (c.locals cpu) e = some (m, u) := hm
    have hlocals : Function.update (place k c s).locals (k, cpu) u =
        fun i => if i.1 = k then Function.update c.locals cpu u i.2 else s.locals i := by
      funext ⟨j, n⟩
      by_cases hjk : j = k
      · by_cases hn : n = cpu
        · simp [hjk, hn]
        · simp [place, hjk, hn]
      · simp [place, hjk]
    simp only [inPhase, Threads.machine, test]
    simpa [place, hwork] using hlocals
  | env e =>
    obtain ⟨g, hg, rfl⟩ := Threads.env_step h
    obtain ⟨q, pc, hq, rfl⟩ := cycle_env_step hg
    have hphase : cycleTest (p.cycleArgs k) ((place k c s).shared.phases k) c.shared.main =
        some (q, pc) := by
      simp only [place, Function.update_self]
      exact hq
    have hown := testKvmClock_cycle (p := p) (g := (place k c s).shared) rfl hphase
    simp only [inPhase, Threads.machine, test, hown]
    simp [place]

theorem place_run {k : Fin 4} {c c' : CycleState pvclock} {tr : List (CycleAction pvclock)}
    (h : (cycle pvclock (p.cycleArgs k)).machine.run c tr = some c') (s : TestState) :
    (test p).machine.run (place k c s) (tr.map (inPhase k)) = some (place k c' s) := by
  induction tr generalizing c with
  | nil =>
    cases h
    rfl
  | cons x tr ih =>
    obtain ⟨u, hu, hrest⟩ := Machine.run_cons_some _ h
    exact Machine.run_trans (Machine.run_single (place_step hu s)) (ih hrest)

end PcmTest.Kvmclock
