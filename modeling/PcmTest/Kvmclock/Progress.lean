import Mathlib.Algebra.BigOperators.Fin
import Mathlib.Data.Fintype.Prod
import PcmTest.Kvmclock.Leftovers
import PcmTest.Kvmclock.Work

/-!
# Every ioctl can finish

The work left to the four phases and to the main thread goes down with each step of
`test_kvm_clock`, but for a turn of the wait loop that finds the counter above zero. So a
run has boundedly many other steps. And when the cross calls of a phase reach their CPUs,
a reachable state short of the end has one of them: nothing waits for a lock whose holder
waits.
-/

namespace PcmTest.Kvmclock

open Theory

variable {p : Platform} {σ : Statics}

/-- A turn of the wait loop that finds the counter above zero. -/
def spins (s : TestState) : TestAction → Bool
  | .env .own =>
    match s.shared.main with
    | .cycle k .wait => (s.shared.phases k).ti.ncpus ≠ 0
    | _ => false
  | _ => false

/-- The steps left to `cycle_test` after the wait loop has been left, and before. -/
def CyclePc.work (n : ℕ) : CyclePc → ℕ
  | .setNcpus => n + 8
  | .setCheck => n + 7
  | .launch left => left + 6
  | .wait => 5
  | .printWarps => 4
  | .printStalls _ => 3
  | .printWorst _ _ => 2
  | .verdict _ => 1
  | .returned _ _ => 0

/-- The steps left to the main thread on `n` CPUs. -/
def TestPc.work (n : ℕ) (lastValue : U64) : TestPc → ℕ
  | .clockInit i => (n - i) + n * 13 + 4 * (n + 10) + n + 3
  | .wallclock i => (n - i) * 13 + 4 * (n + 10) + n + 2
  | .wallclockRead i _ _ c =>
    c.work 1 lastValue + 7 + (n - (i + 1)) * 13 + 4 * (n + 10) + n + 2
  | .wallclockPrint i _ c =>
    c.work 1 lastValue + 1 + (n - (i + 1)) * 13 + 4 * (n + 10) + n + 2
  | .setFlags k => (4 - k) * (n + 10) + n + 1
  | .cycle k pc => pc.work n + (3 - k) * (n + 10) + n + 2
  | .clockClear i => n - i + 1
  | .exited => 0

/-- The workers of all phases. -/
def Platform.workers (p : Platform) : Finset (Fin 4 × ℕ) := Finset.univ ×ˢ Finset.range p.ncpus

def workersWork (p : Platform) (lastValue : U64) (ws : Fin 4 × ℕ → Worker pvclock) : ℕ :=
  ∑ i ∈ p.workers, (ws i).work (p.cycleArgs i.1) p.ncpus lastValue

/-- The work left in a state. -/
def TestState.work (p : Platform) (s : TestState) : ℕ :=
  s.shared.main.work p.ncpus s.shared.clock.lastValue +
    workersWork p s.shared.clock.lastValue s.locals

/-! ## Steps of the workers -/

/-- What is known of the `cycle_test` of the active phase. -/
structure ActivePhase (p : Platform) (k : Fin 4) (c : CycleState pvclock) : Prop where
  placed : Threads.Holds (Launched (p.cycleArgs k)) (Placed (p.cycleArgs k)) c
  behind : ∀ cpu, ReadingBehind cpu c.shared (c.locals cpu)
  joins : Joins (p.cycleArgs k) c

/-- A state that some run of the ioctl reaches. -/
def Reachable (p : Platform) (σ : Statics) (s : TestState) : Prop :=
  ∃ tr, (test p).machine.run (testStart σ) tr = some s

theorem reachable_step {s t : TestState} {x : TestAction} (hs : Reachable p σ s)
    (h : (test p).machine.step s x = some t) : Reachable p σ t := by
  obtain ⟨tr, hrun⟩ := hs
  exact ⟨_, Machine.run_trans hrun (Machine.run_single h)⟩

theorem reached_active {A : Fin 4 → ℕ → WorkerEvent pvclock → Prop} {k : Fin 4}
    {c : CycleState pvclock} (h : Reached p σ A k c) : ActivePhase p k c := by
  obtain ⟨clock, tr, -, htr, hrun⟩ := h
  have hstart : Threads.Holds (fun _ => True) ReadingBehind (cycleStart pvclock clock (σ.ti k)) :=
    ⟨trivial, fun _ _ hc => by cases hc⟩
  exact ⟨cycle_reachable_placed htr hrun, ((cycle_behind _ (A k)).run htr hrun hstart).2,
    cycle_joins htr hrun⟩

theorem settled_reading {w : Worker pvclock} {q : Prop} (h : w.pc = .done ∨ w.pc = .idle ∧ q) :
    w.pc.reading? = none := by
  rcases h with h | ⟨h, -⟩ <;> rw [h] <;> rfl

/-- One worker of phase `j` steps while the workers of the other phases are quiet. -/
theorem workersWork_thread {j : Fin 4} {cpu : ℕ} {g g' : ClockStatics} {w : Worker pvclock}
    {ws : Fin 4 × ℕ → Worker pvclock} (hcpu : cpu < p.ncpus) (hle : g.lastValue ≤ g'.lastValue)
    (hown : w.work (p.cycleArgs j) p.ncpus g'.lastValue + p.ncpus * moved g g' <
      (ws (j, cpu)).work (p.cycleArgs j) p.ncpus g.lastValue + moved g g')
    (hquiet : ∀ k, k ≠ j → ∀ c, (ws (k, c)).pc.reading? = none) :
    workersWork p g'.lastValue (Function.update ws (j, cpu) w) < workersWork p g.lastValue ws := by
  let phase : Finset (Fin 4 × ℕ) := {j} ×ˢ Finset.range p.ncpus
  have hphase : ∀ k c, (k, c) ∈ phase ↔ k = j ∧ c < p.ncpus := by
    intro k c
    rw [Finset.mem_product, Finset.mem_singleton, Finset.mem_range]
  have hcard : phase.card = p.ncpus := by
    rw [Finset.card_product, Finset.card_singleton, Finset.card_range, Nat.one_mul]
  unfold workersWork
  refine Threads.sum_lt_of_step (H := phase) (d := moved g g') ((hphase j cpu).mpr ⟨rfl, hcpu⟩)
    ?_ ?_ ?_
  · intro i hi
    exact Finset.mem_product.mpr ⟨Finset.mem_univ _, (Finset.mem_product.mp hi).2⟩
  · rintro ⟨k, c⟩ hkc hne
    rw [Function.update_of_ne hne]
    by_cases hk : k = j
    · have hc : c < p.ncpus := Finset.mem_range.mp (Finset.mem_product.mp hkc).2
      rw [if_pos ((hphase k c).mpr ⟨hk, hc⟩)]
      exact worker_work_other _ _ hle _
    · exact Nat.le_add_right_of_le (Nat.le_of_eq (work_quiet _ _ _ _ (hquiet k hk c)))
  · rw [Function.update_self, hcard]
    exact hown

theorem work_thread {j : Fin 4} {cpu : ℕ} {e : WorkerEvent pvclock} {s t : TestState}
    (hs : Reachable p σ s) (h : (test p).machine.step s (.thread (j, cpu) e) = some t) :
    t.work p < s.work p := by
  obtain ⟨tr, hrun⟩ := hs
  have hinv := test_phases hrun
  obtain ⟨g, w, hw, rfl⟩ := Threads.thread_step h
  obtain ⟨m, hm, rfl⟩ := test_thread hw
  have hstep := kvmClockTest_step hm
  obtain ⟨pc, hmain⟩ := worker_active (hinv j) hstep
  have hphase := reached_active ((hinv j).active pc hmain)
  have hcpu := worker_mem_range hphase.placed.1 (hphase.placed.2 cpu) hstep
  have hquiet : ∀ k, k ≠ j → ∀ c, (s.locals (k, c)).pc.reading? = none := by
    intro k hk c
    refine settled_reading (workers_settled (hinv k) (fun pc' hpc' => ?_) c)
    cases hmain.symm.trans hpc'
    exact absurd rfl hk
  have hsum := workersWork_thread (Finset.mem_range.mp hcpu)
    (worker_behind (hphase.behind cpu) hstep).1
    (worker_work (hphase.behind cpu) (hphase.placed.2 cpu) hstep) hquiet
  simp only [TestState.work, hmain, TestPc.work]
  exact Nat.add_lt_add_left hsum _

/-! ## Steps of the main thread -/

/-- Outside of a phase the workers do not see `last_value`. -/
theorem workersWork_outside {s : TestState}
    (hinv : ∀ k, PhaseInv p σ (fun _ _ _ => True) k s)
    (hmain : ∀ k pc, s.shared.main ≠ .cycle k pc) (x y : U64) :
    workersWork p x s.locals = workersWork p y s.locals := by
  apply Finset.sum_congr rfl
  rintro ⟨k, cpu⟩ -
  refine work_quiet _ _ x y (settled_reading (workers_settled (hinv k) ?_ cpu))
  exact fun pc hpc => absurd hpc (hmain k pc)

/-- Every step of the main thread is a turn of the wait loop or uses up its work. -/
theorem main_work {g g' : TestMem} {e : TestEvent} {ws : Fin 4 × ℕ → Worker pvclock}
    (h : TestStep p g e g') :
    g'.main.work p.ncpus g'.clock.lastValue + (!spins ⟨g, ws⟩ (.env e)).toNat ≤
      g.main.work p.ncpus g.clock.lastValue := by
  have hone : (!spins ⟨g, ws⟩ (.env e)).toNat ≤ 1 := Bool.toNat_le _
  cases h
  case clockInit i hmain hi =>
    simp only [hmain, TestPc.work]
    omega
  case clockInitDone i hmain hi =>
    simp only [hmain, TestPc.work]
    omega
  case wallclockSkip i hmain hi hcall =>
    simp only [hmain, TestPc.work]
    omega
  case wallclockDone i hmain hi =>
    simp only [hmain, TestPc.work, Fin.val_zero]
    omega
  case bootTime i sec nsec hmain hi hcall =>
    simp only [hmain, TestPc.work, ReadCall.work]
    omega
  case wallclockRead i sec nsec c e clock c' hmain hread =>
    have hread := read_work (.inr rfl) hread
    simp only [hmain, TestPc.work]
    omega
  case wallclockValue i sec nsec c ksec hmain =>
    simp only [hmain, TestPc.work, ReadCall.work]
    omega
  case wallclockPrintRead i ksec c e clock c' hmain hread =>
    have hread := read_work (.inr rfl) hread
    simp only [hmain, TestPc.work]
    omega
  case wallclockPrint i ksec c hmain =>
    simp only [hmain, TestPc.work]
    omega
  case setFlags k hmain =>
    have hk : (4 - (k : ℕ)) * (p.ncpus + 10) = (3 - k) * (p.ncpus + 10) + (p.ncpus + 10) := by
      rw [← Nat.succ_mul]
      congr 1
      omega
    simp only [hmain, TestPc.work, CyclePc.work, hk]
    omega
  case cycle k pc q pc' hmain hcycle =>
    cases cycleTest_step hcycle
    case waitMore hne => simp [hmain, TestPc.work, spins, hne]
    all_goals
      simp only [hmain, TestPc.work, CyclePc.work, Platform.cycleArgs]
      omega
  case cycleReturn k printed result hmain =>
    simp only [hmain, TestPc.work, CyclePc.work, afterCycle]
    split_ifs with hlt
    · have hk : 4 - ((k : ℕ) + 1) = 3 - k := by omega
      simp only [hk]
      omega
    · simp only
      omega
  case clockClear i hmain hi =>
    simp only [hmain, TestPc.work]
    omega
  case clockClearDone i hmain hi =>
    simp only [hmain, TestPc.work]
    omega

/-- Only a clock read of the main thread changes `last_value`, and none is inside of a phase. -/
theorem main_lastValue {g g' : TestMem} {e : TestEvent} (h : TestStep p g e g') :
    g'.clock.lastValue = g.clock.lastValue ∨ ∀ k pc, g.main ≠ .cycle k pc := by
  cases h
  case wallclockRead i sec nsec c e clock c' hmain hread => exact .inr (by simp [hmain])
  case wallclockPrintRead i ksec c e clock c' hmain hread => exact .inr (by simp [hmain])
  all_goals exact .inl rfl

theorem work_env {e : TestEvent} {s t : TestState} (hs : Reachable p σ s)
    (h : (test p).machine.step s (.env e) = some t) :
    t.work p + (!spins s (.env e)).toNat ≤ s.work p := by
  obtain ⟨tr, hrun⟩ := hs
  obtain ⟨g, hg, rfl⟩ := Threads.env_step h
  have hstep := testKvmClock_step hg
  have hmain : g.main.work p.ncpus g.clock.lastValue + (!spins s (.env e)).toNat ≤
      s.shared.main.work p.ncpus s.shared.clock.lastValue := main_work hstep
  have hsame : workersWork p g.clock.lastValue s.locals =
      workersWork p s.shared.clock.lastValue s.locals := by
    rcases main_lastValue hstep with hlast | hout
    · rw [hlast]
    · exact workersWork_outside (test_phases hrun) hout _ _
  simp only [TestState.work, hsame]
  omega

theorem work_step {x : TestAction} {s t : TestState} (hs : Reachable p σ s)
    (h : (test p).machine.step s x = some t) : t.work p + (!spins s x).toNat ≤ s.work p := by
  cases x with
  | thread i e => exact work_thread hs h
  | env e => exact work_env hs h

theorem work_start (p : Platform) (σ : Statics) : (testStart σ).work p =
    p.ncpus * (p.loops * (6 * p.ncpus + 58) + 16) + 19 * p.ncpus + 43 := by
  have hphase : ∀ k : Fin 4, ∑ cpu ∈ Finset.range p.ncpus,
      ((testStart σ).locals (k, cpu)).work (p.cycleArgs k) p.ncpus
        (testStart σ).shared.clock.lastValue =
      p.ncpus * (p.loops * iterationWork p.ncpus (phaseCheck k) + 4) := by
    intro k
    simp only [testStart, Worker.idle, Worker.work, Platform.cycleArgs]
    rw [Finset.sum_const_nat fun _ _ => rfl, Finset.card_range]
  have hworkers : workersWork p (testStart σ).shared.clock.lastValue (testStart σ).locals =
      p.ncpus * (p.loops * (6 * p.ncpus + 58) + 16) := by
    rw [workersWork, Platform.workers, Finset.sum_product, Fin.sum_univ_four, hphase, hphase,
      hphase, hphase]
    have hcheck : ∀ n, iterationWork n (phaseCheck 0) = 2 * n + 23 ∧
        iterationWork n (phaseCheck 1) = 2 * n + 23 ∧ iterationWork n (phaseCheck 2) = n + 6 ∧
        iterationWork n (phaseCheck 3) = n + 6 := fun _ => ⟨rfl, rfl, rfl, rfl⟩
    obtain ⟨h₀, h₁, h₂, h₃⟩ := hcheck p.ncpus
    rw [h₀, h₁, h₂, h₃]
    ring
  simp only [TestState.work, hworkers]
  simp only [testStart, TestPc.work]
  omega

/-- With all workers done the counter would be at zero. -/
theorem finished_eq {n : ℕ} {ws : ℕ → Worker pvclock} (h : ∀ cpu < n, (ws cpu).pc = .done) :
    finished n ws = n := by
  unfold finished Threads.total
  rw [Finset.sum_congr rfl (g := fun _ => (1 : ℤ))]
  · simp
  · intro cpu hcpu
    simp only [h cpu (Finset.mem_range.mp hcpu), Pc.isDone, if_true]

theorem reached_locked {A : Fin 4 → ℕ → WorkerEvent pvclock → Prop} {k : Fin 4}
    {c : CycleState pvclock} (hlock : (σ.ti k).lock = none) (h : Reached p σ A k c) (cpu : ℕ) :
    LockedBy cpu c.shared (c.locals cpu) := by
  obtain ⟨clock, tr, -, htr, hrun⟩ := h
  have hstart := cycleStart_warpHeld (K := pvclock) (p.cycleArgs k) clock hlock
  exact ((cycle_locked pvclock _ (A k)).run htr hrun
    ⟨trivial, fun cpu => (hstart.2 cpu).1.1⟩).2 cpu

/-- While the wait loop spins, a worker can step, if the cross calls of the phase have
reached their CPUs. -/
theorem spinning_enabled {k : Fin 4} {s : TestState} (hs : Reachable p σ s)
    (hlock : (σ.ti k).lock = none) (hcall : ∀ cpu < p.ncpus, p.call (.worker k) cpu = true)
    (hmain : s.shared.main = .cycle k .wait) (hne : (s.shared.phases k).ti.ncpus ≠ 0) :
    ∃ x t, (test p).machine.step s x = some t ∧ spins s x = false := by
  obtain ⟨tr, hrun⟩ := hs
  have hreached := (test_phases hrun k).active _ hmain
  have hphase := reached_active hreached
  obtain ⟨cpu, hcpu, hdone⟩ : ∃ cpu < p.ncpus, (s.locals (k, cpu)).pc ≠ .done := by
    by_contra hall
    push Not at hall
    have hcount := hphase.joins.counter (by simp [view])
    have hfinished : finished p.ncpus (fun cpu => s.locals (k, cpu)) = p.ncpus := finished_eq hall
    simp only [view, Platform.cycleArgs, hfinished] at hcount
    omega
  obtain ⟨i, e, henabled⟩ :=
    cycle_enabled hphase.placed (reached_locked hlock hreached) hcpu (hcall cpu hcpu) hdone
  have hstep : ((test p).machine.step s (.thread (k, i) e)).isSome = true := by
    simp only [Threads.machine, test, Option.isSome_map]
    exact henabled
  obtain ⟨t, ht⟩ := Option.isSome_iff_exists.mp hstep
  exact ⟨.thread (k, i) e, t, ht, rfl⟩

theorem env_enabled {s : TestState} {e : TestEvent}
    (h : (testKvmClock p s.shared e).isSome = true) :
    ∃ t, (test p).machine.step s (.env e) = some t := by
  obtain ⟨g, hg⟩ := Option.isSome_iff_exists.mp h
  exact ⟨⟨g, s.locals⟩, by simp only [Threads.machine, test, hg, Option.map_some]⟩

/-- The main thread spins, or it has another step. -/
theorem main_enabled (s : TestState) (hexit : s.shared.main ≠ .exited) :
    (∃ k, s.shared.main = .cycle k .wait ∧ (s.shared.phases k).ti.ncpus ≠ 0) ∨
      ∃ x t, (test p).machine.step s x = some t ∧ spins s x = false := by
  by_cases hspin : ∃ k, s.shared.main = .cycle k .wait ∧ (s.shared.phases k).ti.ncpus ≠ 0
  · exact .inl hspin
  · have hquiet : ∀ e, spins s (.env e) = false := by
      intro e
      cases e <;> simp only [spins]
      split
      · next k hmain => simpa [hmain] using hspin
      · rfl
    suffices henabled : ∃ e, (testKvmClock p s.shared e).isSome = true by
      obtain ⟨e, he⟩ := henabled
      obtain ⟨t, ht⟩ := env_enabled he
      exact .inr ⟨.env e, t, ht, hquiet e⟩
    cases hmain : s.shared.main with
    | clockInit i => exact ⟨.own, by simp only [testKvmClock, hmain, Option.isSome_some]⟩
    | wallclock i =>
      by_cases hi : i < p.ncpus ∧ p.call .wallclock i = true
      · exact ⟨.bootTime 0 0, by simp [testKvmClock, hmain, hi]⟩
      · refine ⟨.own, ?_⟩
        simp only [testKvmClock, hmain]
        split_ifs with hlt hcall
        · exact absurd ⟨hlt, hcall⟩ hi
        · rfl
        · rfl
    | wallclockRead i sec nsec c =>
      rcases read_enabled s.shared.clock c with ⟨v, hv⟩ | ⟨e, r, hr⟩
      · exact ⟨.own, by simp [testKvmClock, hmain, hv]⟩
      · exact ⟨.clock e, by simp [testKvmClock, hmain, hr]⟩
    | wallclockPrint i ksec c =>
      rcases read_enabled s.shared.clock c with ⟨v, hv⟩ | ⟨e, r, hr⟩
      · exact ⟨.own, by simp [testKvmClock, hmain, hv]⟩
      · exact ⟨.clock e, by simp [testKvmClock, hmain, hr]⟩
    | setFlags k => exact ⟨.own, by simp only [testKvmClock, hmain, Option.isSome_some]⟩
    | cycle k pc =>
      refine ⟨.own, ?_⟩
      cases pc with
      | launch left => cases left <;> simp [testKvmClock, hmain, cycleTest]
      | _ => simp [testKvmClock, hmain, cycleTest]
    | clockClear i => exact ⟨.own, by simp only [testKvmClock, hmain, Option.isSome_some]⟩
    | exited => exact absurd hmain hexit

/-- A phase is over only when all its cross calls have reached their CPUs. -/
theorem called_of_completed {k : Fin 4} {s : TestState} (hs : Reachable p σ s)
    (hlt : k < s.shared.main.completed) {cpu : ℕ} (hcpu : cpu < p.ncpus) :
    p.call (.worker k) cpu = true := by
  obtain ⟨tr, hrun⟩ := hs
  obtain ⟨clock, printed, result, hreached, -⟩ := (test_phases hrun k).completed hlt
  have hphase := reached_active hreached
  have hdone := hphase.joins.joined rfl cpu hcpu
  exact ((hphase.placed.2 cpu).1 (by simp [hdone])).2.1

/-- As long as all cross calls arrive, an ioctl can finish from each of its reachable states. -/
theorem finishes_of_called (hσ : History σ)
    (hcall : ∀ k, ∀ cpu < p.ncpus, p.call (.worker k) cpu = true) (tr : List TestAction)
    (s : TestState) (hrun : (test p).machine.run (testStart σ) tr = some s) :
    ∃ tr' t, (test p).machine.run s tr' = some t ∧ t.shared.main = .exited := by
  refine Machine.reaches_of_rank (P := Reachable p σ) (TestState.work p) ?_ ⟨tr, hrun⟩
  intro u hu hexit
  obtain ⟨x, v, hstep, hspin⟩ :
      ∃ x v, (test p).machine.step u x = some v ∧ spins u x = false := by
    rcases main_enabled u hexit with ⟨k, hmain, hne⟩ | henabled
    · exact spinning_enabled hu (history_unlocked hσ k) (hcall k) hmain hne
    · exact henabled
  have hwork := work_step hu hstep
  rw [hspin] at hwork
  exact ⟨x, v, hstep, reachable_step hu hstep, Nat.lt_of_succ_le hwork⟩

end PcmTest.Kvmclock
