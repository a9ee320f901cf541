import PcmTest.Kvmclock.Worker
import Mathlib.Data.Finset.Card
import Mathlib.Algebra.BigOperators.Intervals

/-!
# One call of cycle_test

The calling thread sets the counter, launches `kvm_clock_test` on the CPUs
`ncpus - 1, ..., 0` by asynchronous cross calls, of which each may fail, waits for
the counter to reach zero, prints the totals and returns the verdict. A launched
worker starts at any later point.
-/

namespace PcmTest.Kvmclock

open Theory

/-- The arguments of `cycle_test`, the global `loops`, and which launches succeed. -/
structure CycleArgs where
  ncpus : ℕ
  check : ℤ
  loops : ℕ
  launch : ℕ → Bool

/-- The three totals that `cycle_test` prints. -/
structure Totals where
  warps : U64
  stalls : U64
  worst : ℤ
  deriving DecidableEq, Repr

/-- Program points of `cycle_test`; `launch left` has the CPUs below `left` still to launch. -/
inductive CyclePc where
  | setNcpus
  | setCheck
  | launch (left : ℕ)
  | wait
  | printWarps
  | printStalls (warps : U64)
  | printWorst (warps stalls : U64)
  | verdict (printed : Option Totals)
  | returned (printed : Option Totals) (result : ℤ)
  deriving DecidableEq, Repr

variable {K : Clock}

/-- `smp_call_function_single(cpu, kvm_clock_test, ti, 0)`: queue the call, or fail. -/
def smpCall (launch : ℕ → Bool) (cpu : ℕ) (p : PhaseState K) : PhaseState K :=
  if launch cpu then { p with queued := Function.update p.queued cpu true } else p

/-- One step of the thread that runs `cycle_test`. -/
def cycleTest (a : CycleArgs) (p : PhaseState K) : CyclePc → Option (PhaseState K × CyclePc)
  | .setNcpus => some ({ p with ti.ncpus := a.ncpus }, .setCheck)
  | .setCheck => some ({ p with ti.check := a.check }, .launch a.ncpus)
  | .launch 0 => some (p, .wait)
  | .launch (i + 1) => some (smpCall a.launch i p, .launch i)
  | .wait =>
    some (p, if p.ti.ncpus ≠ 0 then .wait
      else if a.check = 1 then .printWarps else .verdict none)
  | .printWarps => some (p, .printStalls p.ti.warps)
  | .printStalls warps => some (p, .printWorst warps p.ti.stalls)
  | .printWorst warps stalls => some (p, .verdict (some ⟨warps, stalls, p.ti.worst⟩))
  | .verdict printed => some (p, .returned printed (if p.ti.warps ≠ 0 then 1 else 0))
  | .returned _ _ => none

/-- Everything a step of `cycle_test` can do, one constructor for each program point and
outcome. -/
inductive CycleTestStep (a : CycleArgs) (p : PhaseState K) :
    CyclePc → PhaseState K → CyclePc → Prop
  | setNcpus : CycleTestStep a p .setNcpus { p with ti.ncpus := a.ncpus } .setCheck
  | setCheck : CycleTestStep a p .setCheck { p with ti.check := a.check } (.launch a.ncpus)
  | launchDone : CycleTestStep a p (.launch 0) p .wait
  | launch {i} : a.launch i = true → CycleTestStep a p (.launch (i + 1))
      { p with queued := Function.update p.queued i true } (.launch i)
  | launchFail {i} : a.launch i = false → CycleTestStep a p (.launch (i + 1)) p (.launch i)
  | waitMore : p.ti.ncpus ≠ 0 → CycleTestStep a p .wait p .wait
  | waitCheck : p.ti.ncpus = 0 → a.check = 1 → CycleTestStep a p .wait p .printWarps
  | waitPlain : p.ti.ncpus = 0 → a.check ≠ 1 → CycleTestStep a p .wait p (.verdict none)
  | printWarps : CycleTestStep a p .printWarps p (.printStalls p.ti.warps)
  | printStalls {warps} : CycleTestStep a p (.printStalls warps) p (.printWorst warps p.ti.stalls)
  | printWorst {warps stalls} : CycleTestStep a p (.printWorst warps stalls) p
      (.verdict (some ⟨warps, stalls, p.ti.worst⟩))
  | verdict {printed} : CycleTestStep a p (.verdict printed) p
      (.returned printed (if p.ti.warps ≠ 0 then 1 else 0))

theorem cycleTest_step {a : CycleArgs} {p q : PhaseState K} {pc pc' : CyclePc}
    (h : cycleTest a p pc = some (q, pc')) : CycleTestStep a p pc q pc' := by
  cases pc with
  | launch left =>
    cases left with
    | zero =>
      cases h
      exact .launchDone
    | succ i =>
      simp only [cycleTest, smpCall, Option.some.injEq, Prod.mk.injEq] at h
      obtain ⟨rfl, rfl⟩ := h
      split_ifs with hl
      · exact .launch hl
      · exact .launchFail (by simpa using hl)
  | wait =>
    simp only [cycleTest, Option.some.injEq, Prod.mk.injEq] at h
    obtain ⟨rfl, rfl⟩ := h
    split_ifs with hne hcheck
    · exact .waitMore hne
    · exact .waitCheck (not_not.mp hne) hcheck
    · exact .waitPlain (not_not.mp hne) hcheck
  | returned printed result => cases h
  | _ =>
    cases h
    constructor

/-- The memory of a `cycle_test` call and the place of its caller. -/
structure CycleMem (K : Clock) where
  mem : Mem K
  main : CyclePc

/-- The workers are threads, one for each CPU; the caller is the environment. -/
def cycle (K : Clock) (a : CycleArgs) :
    Threads ℕ (CycleMem K) (Worker K) (WorkerEvent K) Unit where
  thread cpu e g w :=
    (kvmClockTest a.loops cpu g.mem w e).map fun r => ({ g with mem := r.1 }, r.2)
  env _ g := (cycleTest a g.mem.toPhaseState g.main).map fun r =>
    { mem := { toPhaseState := r.1, clock := g.mem.clock }, main := r.2 }

abbrev CycleState (K : Clock) := Threads.State ℕ (CycleMem K) (Worker K)
abbrev CycleAction (K : Clock) := Threads.Action ℕ (WorkerEvent K) Unit

/-- The call begins with whatever `ti` and the clock hold, and no worker about. -/
def cycleStart (K : Clock) (clock : K.Shared) (ti : TestInfo) : CycleState K where
  shared :=
    { mem := { ti := ti, queued := fun _ => false, log := [], clock := clock }
      main := .setNcpus }
  locals _ := Worker.idle K

variable {a : CycleArgs}

theorem cycle_thread {cpu : ℕ} {e : WorkerEvent K} {g g' : CycleMem K} {w w' : Worker K}
    (h : (cycle K a).thread cpu e g w = some (g', w')) :
    ∃ m, WorkerStep a.loops cpu g.mem w e m w' ∧ g' = { g with mem := m } := by
  obtain ⟨⟨m, u⟩, hm, he⟩ := Option.map_eq_some_iff.mp h
  cases he
  exact ⟨m, kvmClockTest_step hm, rfl⟩

theorem cycle_env_step {e : Unit} {g g' : CycleMem K} (h : (cycle K a).env e g = some g') :
    ∃ p pc, cycleTest a g.mem.toPhaseState g.main = some (p, pc) ∧
      g' = { mem := { ti := p.ti, queued := p.queued, log := p.log, clock := g.mem.clock }
             main := pc } := by
  obtain ⟨⟨p, pc⟩, hp, rfl⟩ := Option.map_eq_some_iff.mp h
  exact ⟨p, pc, hp, rfl⟩

theorem cycle_env_cases {e : Unit} {g g' : CycleMem K} (h : (cycle K a).env e g = some g') :
    ∃ p pc, CycleTestStep a g.mem.toPhaseState g.main p pc ∧
      g' = { mem := { ti := p.ti, queued := p.queued, log := p.log, clock := g.mem.clock }
             main := pc } := by
  obtain ⟨p, pc, hp, rfl⟩ := cycle_env_step h
  exact ⟨p, pc, cycleTest_step hp, rfl⟩

/-- What a step of the caller leaves alone. -/
theorem cycle_env {e : Unit} {g g' : CycleMem K} (h : (cycle K a).env e g = some g') :
    g'.mem.log = g.mem.log ∧ g'.mem.clock = g.mem.clock ∧
      g'.mem.ti = { g.mem.ti with ncpus := g'.mem.ti.ncpus, check := g'.mem.ti.check } := by
  obtain ⟨p, pc, hstep, rfl⟩ := cycle_env_cases h
  obtain ⟨mem, main⟩ := g
  cases hstep <;> exact ⟨rfl, rfl, rfl⟩

/-! ## The spin lock -/

/-- Program points inside a critical section. -/
def Pc.holdsLock : Pc K → Bool
  | .firstRead _ | .loadLast _ _ | .secondRead _ _ _ _ | .storeLast _ | .release _
  | .loadWarps _ | .storeWarps _ _ | .worstTest _ | .storeWorst _ | .releaseWarp _ => true
  | _ => false

/-- The worker on `cpu` is in a critical section exactly when it holds the lock. -/
def LockedBy (cpu : ℕ) (g : CycleMem K) (w : Worker K) : Prop :=
  w.pc.holdsLock = true ↔ g.mem.ti.lock = some cpu

/-- Mutual exclusion. -/
theorem lockedBy_other {i j : ℕ} {g : CycleMem K} {w u : Worker K} (hij : i ≠ j)
    (hw : LockedBy i g w) (hu : LockedBy j g u) (h : w.pc.holdsLock = true) :
    u.pc.holdsLock = false := by
  have hlock : g.mem.ti.lock = some i := hw.mp h
  by_contra hholds
  have hlock' : g.mem.ti.lock = some j := hu.mp (by simpa using hholds)
  rw [hlock] at hlock'
  exact hij (Option.some.inj hlock')

/-- A worker's step leaves the lock alone, takes it when it is free, or gives it back. -/
theorem worker_lock {loops cpu : ℕ} {m m' : Mem K} {w w' : Worker K} {e : WorkerEvent K}
    (h : WorkerStep loops cpu m w e m' w') :
    (m'.ti.lock = m.ti.lock ∧ w'.pc.holdsLock = w.pc.holdsLock) ∨
    (m.ti.lock = none ∧ m'.ti.lock = some cpu ∧ w'.pc.holdsLock = true) ∨
    (w.pc.holdsLock = true ∧ m'.ti.lock = none ∧ w'.pc.holdsLock = false) := by
  cases h
  case acquire check i hfree => exact .inr (.inl ⟨hfree, rfl, rfl⟩)
  case acquireWarp check i delta hfree => exact .inr (.inl ⟨hfree, rfl, rfl⟩)
  case release check i e => exact .inr (.inr ⟨rfl, rfl, rfl⟩)
  case releaseWarp check i delta => exact .inr (.inr ⟨rfl, rfl, rfl⟩)
  all_goals exact .inl ⟨rfl, rfl⟩

theorem cycle_locked (K : Clock) (a : CycleArgs) (A : ℕ → WorkerEvent K → Prop) :
    (cycle K a).Inductive A (fun _ => True) LockedBy where
  own _ _ hP h := by
    obtain ⟨m, hstep, rfl⟩ := cycle_thread h
    refine ⟨trivial, ?_⟩
    unfold LockedBy at hP ⊢
    rcases worker_lock hstep with ⟨hlock, hpc⟩ | ⟨-, hlock, hpc⟩ | ⟨-, hlock, hpc⟩
    · rwa [hlock, hpc]
    · simp [hlock, hpc]
    · simp [hlock, hpc]
  other _ hij _ hP hQ h := by
    obtain ⟨m, hstep, rfl⟩ := cycle_thread h
    unfold LockedBy at hP hQ ⊢
    rcases worker_lock hstep with ⟨hlock, -⟩ | ⟨hfree, hlock, -⟩ | ⟨hholds, hlock, -⟩
    · rwa [hlock]
    · simp [hQ, hfree, hlock, hij]
    · simp [hQ, hP.mp hholds, hlock, hij]
  env _ h := by
    refine ⟨trivial, fun i u hP => ?_⟩
    unfold LockedBy at hP ⊢
    rw [(cycle_env h).2.2]
    exact hP

/-! ## Launches -/

/-- The caller has made the cross call to `cpu`. -/
def CyclePc.passed (ncpus cpu : ℕ) : CyclePc → Prop
  | .setNcpus | .setCheck => False
  | .launch left => left ≤ cpu ∧ cpu < ncpus
  | _ => cpu < ncpus

/-- The loop counter and the branch on `check` at each program point. -/
def Worker.InLoop (loops : ℕ) (w : Worker K) : Prop :=
  match w.pc with
  | .idle | .loadCheck => True
  | .loopTest => w.i ≤ loops
  | .plainRead _ => w.i < loops ∧ w.check = 0
  | .decNcpus | .done => w.i = loops
  | _ => w.i < loops ∧ w.check ≠ 0

/-- Queued calls were launched, the launch loop counts down from `ncpus`, and `check` is
set before the first launch. -/
def Launched (a : CycleArgs) (g : CycleMem K) : Prop :=
  (∀ cpu, g.mem.queued cpu = true → g.main.passed a.ncpus cpu ∧ a.launch cpu = true) ∧
  (∀ left, g.main = .launch left → left ≤ a.ncpus) ∧
  (g.main ≠ .setNcpus → g.main ≠ .setCheck → g.mem.ti.check = a.check)

/-- A worker was launched once, it runs or is pending as soon as it was launched, and it
works through its loop with the caller's `check`. -/
def Placed (a : CycleArgs) (cpu : ℕ) (g : CycleMem K) (w : Worker K) : Prop :=
  (w.pc ≠ .idle → g.main.passed a.ncpus cpu ∧ a.launch cpu = true ∧ g.mem.queued cpu = false) ∧
  (g.main.passed a.ncpus cpu → a.launch cpu = true → g.mem.queued cpu = true ∨ w.pc ≠ .idle) ∧
  (w.pc ≠ .idle → w.pc ≠ .loadCheck → w.check = a.check) ∧ w.InLoop a.loops

theorem passed_lt {ncpus cpu : ℕ} {pc : CyclePc} (h : pc.passed ncpus cpu) : cpu < ncpus := by
  cases pc with
  | setNcpus => exact h.elim
  | setCheck => exact h.elim
  | launch left => exact h.2
  | _ => exact h

theorem passed_after_set {ncpus cpu : ℕ} {pc : CyclePc} (h : pc.passed ncpus cpu) :
    pc ≠ .setNcpus ∧ pc ≠ .setCheck := by
  cases pc <;> simp_all [CyclePc.passed]

/-- A step of the caller launches at most one more CPU. -/
theorem cycle_env_launch {e : Unit} {g g' : CycleMem K} (h : (cycle K a).env e g = some g') :
    (g'.mem.queued = g.mem.queued ∧
      ∀ cpu, g'.main.passed a.ncpus cpu ↔ g.main.passed a.ncpus cpu) ∨
    (∃ i, g.main = .launch (i + 1) ∧ g'.main = .launch i ∧ g'.mem.queued =
      if a.launch i then Function.update g.mem.queued i true else g.mem.queued) := by
  obtain ⟨p, pc, hstep, rfl⟩ := cycle_env_cases h
  clear h
  obtain ⟨mem, main⟩ := g
  cases hstep
  case setCheck =>
    exact .inl ⟨rfl, fun cpu => ⟨fun hc => absurd hc.1 (Nat.not_le.mpr hc.2), fun hc => hc.elim⟩⟩
  case launch i hl => exact .inr ⟨i, rfl, rfl, (if_pos hl).symm⟩
  case launchFail i hl => exact .inr ⟨i, rfl, rfl, by simp [hl]⟩
  all_goals exact .inl ⟨rfl, fun cpu => by simp [CyclePc.passed]⟩

/-- The launched CPU was not passed before, and nothing else changes. -/
theorem cycle_env_launched {e : Unit} {g g' : CycleMem K} (h : (cycle K a).env e g = some g')
    (hleft : ∀ left, g.main = .launch left → left ≤ a.ncpus) :
    (g'.mem.queued = g.mem.queued ∧
      ∀ cpu, g'.main.passed a.ncpus cpu ↔ g.main.passed a.ncpus cpu) ∨
    (∃ i, ¬ g.main.passed a.ncpus i ∧
      (∀ cpu, g'.main.passed a.ncpus cpu ↔ g.main.passed a.ncpus cpu ∨ cpu = i) ∧
      ∀ cpu, g'.mem.queued cpu = true ↔
        g.mem.queued cpu = true ∨ cpu = i ∧ a.launch i = true) := by
  rcases cycle_env_launch h with hsame | ⟨i, hg, hg', hq⟩
  · exact .inl hsame
  · have hlt : i < a.ncpus := hleft (i + 1) hg
    refine .inr ⟨i, by simp [hg, CyclePc.passed], fun cpu => ?_, fun cpu => ?_⟩
    · simp only [hg, hg', CyclePc.passed]
      omega
    · rw [hq]
      by_cases hl : a.launch i = true
      · by_cases hcpu : cpu = i <;> simp [hl, hcpu]
      · simp [hl]

/-- `check` is stored once, before the first launch. -/
theorem cycle_env_check {e : Unit} {g g' : CycleMem K} (h : (cycle K a).env e g = some g')
    (hg : g.main ≠ .setNcpus → g.main ≠ .setCheck → g.mem.ti.check = a.check) :
    g'.main ≠ .setNcpus → g'.main ≠ .setCheck → g'.mem.ti.check = a.check := by
  obtain ⟨p, pc, hstep, rfl⟩ := cycle_env_cases h
  clear h
  obtain ⟨mem, main⟩ := g
  intro _ hcheck
  cases hstep
  case setNcpus => exact absurd rfl hcheck
  case setCheck => rfl
  all_goals exact hg (by simp) (by simp)

theorem cycle_env_left {e : Unit} {g g' : CycleMem K} (h : (cycle K a).env e g = some g')
    (hg : ∀ left, g.main = .launch left → left ≤ a.ncpus) :
    ∀ left, g'.main = .launch left → left ≤ a.ncpus := by
  obtain ⟨p, pc, hstep, rfl⟩ := cycle_env_cases h
  clear h
  obtain ⟨mem, main⟩ := g
  intro left hleft
  cases hstep
  case setCheck =>
    cases hleft
    exact le_rfl
  case launch i hl =>
    cases hleft
    exact Nat.le_of_succ_le (hg _ rfl)
  case launchFail i hl =>
    cases hleft
    exact Nat.le_of_succ_le (hg _ rfl)
  all_goals cases hleft

/-- A worker's step dequeues no other call and never stores `check`. -/
theorem worker_frame {loops cpu : ℕ} {m m' : Mem K} {w w' : Worker K} {e : WorkerEvent K}
    (h : WorkerStep loops cpu m w e m' w') :
    (∀ i, i ≠ cpu → m'.queued i = m.queued i) ∧ m'.ti.check = m.ti.check := by
  cases h
  case startCall check i hq => exact ⟨fun i hi => Function.update_of_ne hi _ _, rfl⟩
  all_goals exact ⟨fun _ _ => rfl, rfl⟩

theorem cycle_placed (K : Clock) (a : CycleArgs) (A : ℕ → WorkerEvent K → Prop) :
    (cycle K a).Inductive A (Launched a) (Placed a) where
  own {cpu e g w g' w'} _hA hI hP h := by
    obtain ⟨m, hstep, rfl⟩ := cycle_thread h
    clear h _hA
    obtain ⟨hqueued, hleft, hcheck⟩ := hI
    obtain ⟨hstart, hpend, hck, hloop⟩ := hP
    cases hstep
    case startCall check i hq =>
      refine ⟨⟨fun c hc => ?_, hleft, hcheck⟩, ?_, by simp, by simp, trivial⟩
      · by_cases hcpu : c = cpu
        · simp [hcpu] at hc
        · exact hqueued c (by simpa [hcpu] using hc)
      · exact fun _ => ⟨(hqueued cpu hq).1, (hqueued cpu hq).2, by simp⟩
    case loadCheck check i =>
      have hset := passed_after_set (hstart (by simp)).1
      exact ⟨⟨hqueued, hleft, hcheck⟩, fun _ => hstart (by simp), by simp,
        fun _ _ => hcheck hset.1 hset.2, Nat.zero_le _⟩
    case leaveLoop check i hi =>
      exact ⟨⟨hqueued, hleft, hcheck⟩, fun _ => hstart (by simp), by simp,
        fun _ _ => hck (by simp) (by simp), Nat.le_antisymm hloop (Nat.not_lt.mp hi)⟩
    -- the other steps stay between `loadCheck` and the end; only the loop counter is at issue
    all_goals
      refine ⟨⟨hqueued, hleft, hcheck⟩, fun _ => hstart (by simp), by simp,
        fun _ _ => hck (by simp) (by simp), ?_⟩
      clear hqueued hleft hcheck hstart hpend hck
      simp_all [Worker.InLoop]
  other {i j e g w g' w' u} _ hij _ _ hQ h := by
    obtain ⟨m, hstep, rfl⟩ := cycle_thread h
    unfold Placed at hQ ⊢
    rw [(worker_frame hstep).1 j (Ne.symm hij)]
    exact hQ
  env {e g g'} hI h := by
    obtain ⟨hqueued, hleft, hcheck⟩ := hI
    have hleft' := cycle_env_left h hleft
    have hcheck' := cycle_env_check h hcheck
    rcases cycle_env_launched h hleft with ⟨hq, hpassed⟩ | ⟨n, hfirst, hpassed, hnew⟩
    · refine ⟨⟨fun c hc => ?_, hleft', hcheck'⟩, fun i u hu => ?_⟩
      · rw [hpassed c]
        exact hqueued c (hq ▸ hc)
      · unfold Placed at hu ⊢
        rw [hq, hpassed i]
        exact hu
    · refine ⟨⟨fun c hc => ?_, hleft', hcheck'⟩,
        fun i u hu => ⟨fun hi => ?_, fun hc hl => ?_, hu.2.2⟩⟩
      · rcases (hnew c).mp hc with hc | ⟨rfl, hl⟩
        · exact ⟨(hpassed c).mpr (.inl (hqueued c hc).1), (hqueued c hc).2⟩
        · exact ⟨(hpassed c).mpr (.inr rfl), hl⟩
      · obtain ⟨hp, hl, hfalse⟩ := hu.1 hi
        refine ⟨(hpassed i).mpr (.inl hp), hl, ?_⟩
        rw [Bool.eq_false_iff, ne_eq, hnew i]
        rintro (hc | ⟨rfl, -⟩)
        · simp [hc] at hfalse
        · exact hfirst hp
      · rcases (hpassed i).mp hc with hc | rfl
        · exact (hu.2.1 hc hl).imp_left fun h => (hnew i).mpr (.inl h)
        · exact .inl ((hnew i).mpr (.inr ⟨rfl, hl⟩))

theorem cycleStart_placed (a : CycleArgs) (clock : K.Shared) (ti : TestInfo) :
    Threads.Holds (Launched a) (Placed a) (cycleStart K clock ti) := by
  refine ⟨⟨by simp [cycleStart], by simp [cycleStart], by simp [cycleStart]⟩, fun cpu => ?_⟩
  exact ⟨by simp [cycleStart, Worker.idle], fun h => h.elim, by simp [cycleStart, Worker.idle],
    trivial⟩

theorem cycle_reachable_placed {A : ℕ → WorkerEvent K → Prop} {clock : K.Shared} {ti : TestInfo}
    {tr : List (CycleAction K)} {s : CycleState K} (htr : ∀ x ∈ tr, Threads.Allowed A x)
    (h : (cycle K a).machine.run (cycleStart K clock ti) tr = some s) :
    Threads.Holds (Launched a) (Placed a) s :=
  (cycle_placed K a A).run htr h (cycleStart_placed a clock ti)

/-- Only launched workers move. -/
theorem worker_mem_range {cpu : ℕ} {g : CycleMem K} {w w' : Worker K} {e : WorkerEvent K}
    {m : Mem K} (hI : Launched a g) (hP : Placed a cpu g w)
    (h : WorkerStep a.loops cpu g.mem w e m w') : cpu ∈ Finset.range a.ncpus := by
  rw [Finset.mem_range]
  cases h
  case startCall check i hq => exact passed_lt (hI.1 cpu hq).1
  all_goals exact passed_lt (hP.1 (by simp)).1

/-! ## The join counter -/

def Pc.isDone : Pc K → Bool
  | .done => true
  | _ => false

theorem Pc.isDone_iff {pc : Pc K} : pc.isDone = true ↔ pc = .done := by
  cases pc <;> simp [Pc.isDone]

/-- The caller has left the wait loop. -/
def CyclePc.joined : CyclePc → Bool
  | .setNcpus | .setCheck | .launch _ | .wait => false
  | _ => true

/-- What `cycle_test` has read of the totals so far. -/
def CyclePc.Reports (a : CycleArgs) (ti : TestInfo) : CyclePc → Prop
  | .printWarps => a.check = 1
  | .printStalls warps => a.check = 1 ∧ warps = ti.warps
  | .printWorst warps stalls => a.check = 1 ∧ warps = ti.warps ∧ stalls = ti.stalls
  | .verdict printed =>
    printed = if a.check = 1 then some ⟨ti.warps, ti.stalls, ti.worst⟩ else none
  | .returned printed result =>
    (printed = if a.check = 1 then some ⟨ti.warps, ti.stalls, ti.worst⟩ else none) ∧
      result = if ti.warps ≠ 0 then 1 else 0
  | _ => True

/-- The number of finished workers, as an integer. -/
def finished (n : ℕ) (ws : ℕ → Worker K) : ℤ :=
  Threads.total (Finset.range n) (fun w => if w.pc.isDone then (1 : ℤ) else 0) ws

/-- Counter and finished workers add up to `ncpus`; after the wait loop all workers have
finished, and what was printed is what the totals are. -/
structure Joins (a : CycleArgs) (s : CycleState K) : Prop where
  counter : s.shared.main ≠ .setNcpus →
    s.shared.mem.ti.ncpus + finished a.ncpus s.locals = a.ncpus
  joined : s.shared.main.joined = true → ∀ cpu < a.ncpus, (s.locals cpu).pc = .done
  reports : s.shared.main.Reports a s.shared.mem.ti

theorem workerStep_ncpus {loops cpu : ℕ} {m m' : Mem K} {w w' : Worker K} {e : WorkerEvent K}
    (h : WorkerStep loops cpu m w e m' w') :
    m'.ti.ncpus + (if w'.pc.isDone then (1 : ℤ) else 0) =
      m.ti.ncpus + (if w.pc.isDone then (1 : ℤ) else 0) := by
  cases h <;> simp [Pc.isDone]

theorem workerStep_not_done {loops cpu : ℕ} {m m' : Mem K} {w w' : Worker K} {e : WorkerEvent K}
    (h : WorkerStep loops cpu m w e m' w') : w.pc ≠ .done := by
  cases h <;> simp

theorem finished_eq_zero {n : ℕ} {ws : ℕ → Worker K} (h : ∀ cpu < n, (ws cpu).pc = .idle) :
    finished n ws = 0 := by
  apply Threads.total_eq_zero
  intro cpu hcpu
  simp [h cpu (Finset.mem_range.mp hcpu), Pc.isDone]

theorem all_done_of_finished {n : ℕ} {ws : ℕ → Worker K} (h : finished n ws = n) :
    ∀ cpu < n, (ws cpu).pc = .done := by
  intro cpu hcpu
  have hcard : finished n ws = (Finset.range n).card := by simpa using h
  exact Pc.isDone_iff.mp (Threads.total_indicator hcard cpu (Finset.mem_range.mpr hcpu))

theorem joins_thread {cpu : ℕ} {e : WorkerEvent K} {s t : CycleState K}
    (hs : Threads.Holds (Launched a) (Placed a) s) (hj : Joins a s)
    (hstep : (cycle K a).machine.step s (.thread cpu e) = some t) : Joins a t := by
  obtain ⟨g, w, hw, rfl⟩ := Threads.thread_step hstep
  obtain ⟨m, hwork, rfl⟩ := cycle_thread hw
  have hcpu := worker_mem_range hs.1 (hs.2 cpu) hwork
  have hrunning : s.shared.main.joined ≠ true := fun hmain =>
    workerStep_not_done hwork (hj.joined hmain cpu (Finset.mem_range.mp hcpu))
  refine ⟨fun hmain => ?_, fun hmain => absurd hmain hrunning, ?_⟩
  · rw [← hj.counter hmain]
    exact Threads.exchange hcpu _ s.locals (workerStep_ncpus hwork)
  · cases hmain : s.shared.main <;> simp_all [CyclePc.joined, CyclePc.Reports]

theorem joins_env {e : Unit} {s t : CycleState K}
    (hs : Threads.Holds (Launched a) (Placed a) s) (hj : Joins a s)
    (hstep : (cycle K a).machine.step s (.env e) = some t) : Joins a t := by
  obtain ⟨g, hg, rfl⟩ := Threads.env_step hstep
  obtain ⟨p, pc, hcaller, rfl⟩ := cycle_env_cases hg
  clear hg hstep
  obtain ⟨⟨mem, main⟩, ws⟩ := s
  obtain ⟨hcounter, hjoined, hreports⟩ := hj
  dsimp only at hcounter hjoined hreports hcaller
  cases hcaller
  case setNcpus =>
    have hidle : finished a.ncpus ws = 0 := by
      refine finished_eq_zero fun cpu _ => ?_
      by_contra hne
      exact ((hs.2 cpu).1 hne).1
    exact ⟨fun _ => by simp [hidle], by simp [CyclePc.joined], trivial⟩
  case waitCheck hzero hcheck =>
    have hcount := hcounter (by simp)
    exact ⟨fun _ => hcount, fun _ => all_done_of_finished (by simpa [hzero] using hcount), hcheck⟩
  case waitPlain hzero hcheck =>
    have hcount := hcounter (by simp)
    exact ⟨fun _ => hcount, fun _ => all_done_of_finished (by simpa [hzero] using hcount),
      by simp [CyclePc.Reports, hcheck]⟩
  case printWarps => exact ⟨fun _ => hcounter (by simp), hjoined, hreports, rfl⟩
  case printStalls warps =>
    exact ⟨fun _ => hcounter (by simp), hjoined, hreports.1, hreports.2, rfl⟩
  case printWorst warps stalls =>
    obtain ⟨hcheck, rfl, rfl⟩ := hreports
    exact ⟨fun _ => hcounter (by simp), hjoined, by simp [CyclePc.Reports, hcheck]⟩
  case verdict printed => exact ⟨fun _ => hcounter (by simp), hjoined, hreports, rfl⟩
  all_goals exact ⟨fun _ => hcounter (by simp), by simp [CyclePc.joined], trivial⟩

theorem joins_step {s t : CycleState K} {x : CycleAction K}
    (hs : Threads.Holds (Launched a) (Placed a) s) (hj : Joins a s)
    (hstep : (cycle K a).machine.step s x = some t) : Joins a t := by
  cases x with
  | thread cpu e => exact joins_thread hs hj hstep
  | env e => exact joins_env hs hj hstep

theorem cycleStart_joins (a : CycleArgs) (clock : K.Shared) (ti : TestInfo) :
    Joins a (cycleStart K clock ti) :=
  ⟨fun h => absurd rfl h, by simp [cycleStart, CyclePc.joined], trivial⟩

/-- In every reachable state of a `cycle_test` call the join counter is accounted for. -/
theorem cycle_joins {A : ℕ → WorkerEvent K → Prop} {clock : K.Shared} {ti : TestInfo}
    {tr : List (CycleAction K)} {s : CycleState K} (htr : ∀ x ∈ tr, Threads.Allowed A x)
    (h : (cycle K a).machine.run (cycleStart K clock ti) tr = some s) : Joins a s := by
  have hstep : ∀ u x v, Threads.Allowed A x →
      Threads.Holds (Launched a) (Placed a) u ∧ Joins a u →
      (cycle K a).machine.step u x = some v →
      Threads.Holds (Launched a) (Placed a) v ∧ Joins a v :=
    fun u x v hx hu hstep =>
      ⟨(cycle_placed K a A).step hx hu.1 hstep, joins_step hu.1 hu.2 hstep⟩
  exact (Machine.run_preserves _ (Threads.Allowed A) hstep htr
    ⟨cycleStart_placed a clock ti, cycleStart_joins a clock ti⟩ h).2

/-! ## Samples -/

/-- The samples that the clock reads of a run take. -/
def samples (tr : List (CycleAction pvclock)) : List Sample :=
  tr.filterMap fun x =>
    match x with
    | .thread _ (.clock (.sample x)) => some x
    | _ => none

/-- Worker steps that sample only values in `Q`. -/
def Sampling (Q : Sample → Prop) (_cpu : ℕ) (e : WorkerEvent pvclock) : Prop :=
  ∀ x, e = .clock (.sample x) → Q x

theorem allowed_sampling {Q : Sample → Prop} {tr : List (CycleAction pvclock)}
    (h : ∀ x ∈ samples tr, Q x) : ∀ x ∈ tr, Threads.Allowed (Sampling Q) x := by
  intro x hx
  cases x with
  | thread cpu e =>
    rintro y rfl
    exact h y (List.mem_filterMap.mpr ⟨_, hx, rfl⟩)
  | env e => trivial

/-! ## Concrete runs -/

/-- `n` steps of a worker's own code. -/
def ownSteps {K : Clock} (cpu n : ℕ) : List (CycleAction K) := List.replicate n (.thread cpu .own)

/-- `n` steps of the caller. -/
def callerSteps {K : Clock} (n : ℕ) : List (CycleAction K) := List.replicate n (.env ())

/-- A clock read of a worker with `n` accesses after the sample. -/
def clockRead (cpu : ℕ) (x : Sample) (n : ℕ) : List (CycleAction pvclock) :=
  .thread cpu (.clock (.sample x)) :: List.replicate n (.thread cpu (.clock .proceed))

/-- A worker from the loop test to the test of `delta` against zero, with fast reads. -/
def fastSection (cpu : ℕ) (x y : U64) : List (CycleAction pvclock) :=
  ownSteps cpu 2 ++ clockRead cpu ⟨x, 1⟩ 1 ++ ownSteps cpu 2 ++ clockRead cpu ⟨y, 1⟩ 1 ++
    ownSteps cpu 4

end PcmTest.Kvmclock
