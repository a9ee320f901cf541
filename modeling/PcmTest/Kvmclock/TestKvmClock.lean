import Mathlib.Data.Fintype.Basic
import PcmTest.Kvmclock.CycleTest

/-!
# The four phases of test_kvm_clock

The ioctl's thread registers the clock and tests the wall clock on the CPUs
`0, ..., ncpus - 1` by synchronous cross calls, runs `cycle_test` four times on its own
`test_info` under its own `valid_flags`, and clears the registrations. The workers of all
phases are threads of one machine and share the statics of the clock.
-/

namespace PcmTest.Kvmclock

open Theory

def maxCpu : ℕ := 64
def defaultTestLoops : ℕ := 100000000
def defaultThreshold : ℤ := 5
def nsecPerSec : U64 := 1000000000

/-- The value that `test_kvm_clock` assigns to the global `sec`. -/
def hostSec : ℤ := 2

/-- The call sites of `smp_call_function_single`. -/
inductive CallSite where
  | clockInit
  | wallclock
  | worker (k : Fin 4)
  | clockClear
  deriving DecidableEq, Repr

/-- What one ioctl finds: `num_online_cpus()`, the global `loops`, and which cross calls
reach their CPU. -/
structure Platform where
  numOnlineCpus : ℕ
  loops : ℕ
  call : CallSite → ℕ → Bool

def Platform.ncpus (p : Platform) : ℕ :=
  if p.numOnlineCpus > maxCpu then maxCpu else p.numOnlineCpus

def phaseFlags (k : Fin 4) : U8 :=
  if k = 0 ∨ k = 2 then pvclockTscStableBit ||| pvclockRawCycleBit else pvclockTscStableBit

def phaseCheck (k : Fin 4) : ℤ := if k < 2 then 1 else 0

def Platform.cycleArgs (p : Platform) (k : Fin 4) : CycleArgs where
  ncpus := p.ncpus
  check := phaseCheck k
  loops := p.loops
  launch := p.call (.worker k)

/-- The tail of `pvclock_read_wallclock`: seconds and nanoseconds from a clock value and
the boot time. -/
def pvclockReadWallclock (value : U64) (sec nsec : U32) : U64 × U64 :=
  let delta := value + (sec.setWidth 64 * nsecPerSec + nsec.setWidth 64)
  (delta / nsecPerSec, delta % nsecPerSec)

/-- The check at the end of `wallclock_test`. -/
def wallclockTest (ksec : ℤ) (nerr : ℤ) : ℤ :=
  let offset := ksec - hostSec
  if offset > defaultThreshold ∨ offset < -defaultThreshold then nerr + 1 else nerr

/-- Program points of `test_kvm_clock`. Inside `wallclock_test` they are the two clock
reads, of `kvm_get_wallclock` and of the first `printk`. -/
inductive TestPc where
  | clockInit (i : ℕ)
  | wallclock (i : ℕ)
  | wallclockRead (i : ℕ) (sec nsec : U32) (c : ReadCall)
  | wallclockPrint (i : ℕ) (ksec : ℤ) (c : ReadCall)
  | setFlags (k : Fin 4)
  | cycle (k : Fin 4) (pc : CyclePc)
  | clockClear (i : ℕ)
  | exited
  deriving DecidableEq, Repr

/-- The memory of a run: the clock, the four phases, and what is known of the CPUs. The
return value of phase `k` is in `results k`. -/
structure TestMem where
  clock : ClockStatics
  phases : Fin 4 → PhaseState pvclock
  main : TestPc
  registered : ℕ → Bool
  wallclocked : ℕ → Bool
  nerr : ℤ
  results : Fin 4 → Option (Option Totals × ℤ)
  console : List String

/-- Steps of the ioctl's thread: its own code, the boot time found by the retry loop of
`pvclock_read_wallclock`, and the accesses of its clock reads. -/
inductive TestEvent where
  | own
  | bootTime (sec nsec : U32)
  | clock (e : ReadEvent)
  deriving DecidableEq, Repr

/-- A synchronous cross call that marks the CPUs it reaches. -/
def mark (called : Bool) (cpu : ℕ) (value : Bool) (marks : ℕ → Bool) : ℕ → Bool :=
  if called then Function.update marks cpu value else marks

/-- The message after the phase that checks the raw cycle. -/
def rawCycleMessage (result : ℤ) : String :=
  if result ≠ 0 then "Raw cycle is not stable\n" else "Raw cycle is stable\n"

/-- What follows the return of `cycle_test` in phase `k`. -/
def afterCycle (k : Fin 4) (printed : Option Totals) (result : ℤ) (g : TestMem) : TestMem :=
  { g with
    results := Function.update g.results k (some (printed, result))
    console := if k = 0 then g.console ++ [rawCycleMessage result] else g.console
    nerr := if k = 1 then g.nerr + result else g.nerr
    main := if h : k.val + 1 < 4 then .setFlags ⟨k.val + 1, h⟩ else .clockClear 0 }

/-- One step of the thread that runs `test_kvm_clock`. -/
def testKvmClock (p : Platform) (g : TestMem) : TestEvent → Option TestMem
  | .own =>
    match g.main with
    | .clockInit i =>
      some (if i < p.ncpus then
        { g with
          registered := mark (p.call .clockInit i) i true g.registered
          main := .clockInit (i + 1) }
      else { g with main := .wallclock 0 })
    | .wallclock i =>
      if i < p.ncpus then
        if p.call .wallclock i then none else some { g with main := .wallclock (i + 1) }
      else some { g with main := .setFlags 0 }
    | .wallclockRead i sec nsec c =>
      c.value?.map fun value =>
        { g with main := .wallclockPrint i (pvclockReadWallclock value sec nsec).1.toNat .retry }
    | .wallclockPrint i ksec c =>
      c.value?.map fun _ =>
        { g with
          nerr := wallclockTest ksec g.nerr
          wallclocked := mark true i true g.wallclocked
          main := .wallclock (i + 1) }
    | .setFlags k =>
      some { g with clock := pvclockSetFlags (phaseFlags k) g.clock, main := .cycle k .setNcpus }
    | .cycle k (.returned printed result) => some (afterCycle k printed result g)
    | .cycle k pc =>
      (cycleTest (p.cycleArgs k) (g.phases k) pc).map fun r =>
        { g with phases := Function.update g.phases k r.1, main := .cycle k r.2 }
    | .clockClear i =>
      some (if i < p.ncpus then
        { g with
          registered := mark (p.call .clockClear i) i false g.registered
          main := .clockClear (i + 1) }
      else { g with main := .exited })
    | .exited => none
  | .bootTime sec nsec =>
    match g.main with
    | .wallclock i =>
      if i < p.ncpus ∧ p.call .wallclock i = true then
        some { g with main := .wallclockRead i sec nsec .retry }
      else none
    | _ => none
  | .clock e =>
    match g.main with
    | .wallclockRead i sec nsec c =>
      (pvclockClocksourceRead g.clock c e).map fun r =>
        { g with clock := r.1, main := .wallclockRead i sec nsec r.2 }
    | .wallclockPrint i ksec c =>
      (pvclockClocksourceRead g.clock c e).map fun r =>
        { g with clock := r.1, main := .wallclockPrint i ksec r.2 }
    | _ => none

/-- The workers are threads named by phase and CPU; the ioctl's thread is the environment. -/
def test (p : Platform) :
    Threads (Fin 4 × ℕ) TestMem (Worker pvclock) (WorkerEvent pvclock) TestEvent where
  thread i e g w :=
    (kvmClockTest p.loops i.2 ⟨g.phases i.1, g.clock⟩ w e).map fun r =>
      ({ g with phases := Function.update g.phases i.1 r.1.toPhaseState, clock := r.1.clock }, r.2)
  env e g := testKvmClock p g e

abbrev TestState := Threads.State (Fin 4 × ℕ) TestMem (Worker pvclock)
abbrev TestAction := Threads.Action (Fin 4 × ℕ) (WorkerEvent pvclock) TestEvent

/-- The statics that outlive an ioctl. -/
structure Statics where
  clock : ClockStatics
  ti : Fin 4 → TestInfo

def Statics.zero : Statics := ⟨⟨0, 0⟩, fun _ => TestInfo.zero⟩

/-- The ioctl begins with the statics as earlier ones left them. -/
def testStart (σ : Statics) : TestState where
  shared :=
    { clock := σ.clock
      phases := fun k => ⟨σ.ti k, fun _ => false, []⟩
      main := .clockInit 0
      registered := fun _ => false
      wallclocked := fun _ => false
      nerr := 0
      results := fun _ => none
      console := [] }
  locals _ := Worker.idle pvclock

def statics (s : TestState) : Statics :=
  ⟨s.shared.clock, fun k => (s.shared.phases k).ti⟩

/-- The number of phases whose `cycle_test` has returned. -/
def TestPc.completed : TestPc → ℕ
  | .setFlags k | .cycle k _ => k
  | .clockClear _ | .exited => 4
  | _ => 0

/-- The message of the raw cycle phase is on the console as soon as the phase is over. -/
def Reported (g : TestMem) : Prop :=
  (g.main.completed = 0 → g.console = []) ∧
    (0 < g.main.completed → ∃ printed result, g.results 0 = some (printed, result) ∧
      g.console = [rawCycleMessage result])

/-- Everything a step of the ioctl's thread can do. -/
inductive TestStep (p : Platform) (g : TestMem) : TestEvent → TestMem → Prop
  | clockInit {i} : g.main = .clockInit i → i < p.ncpus →
      TestStep p g .own
        { g with
          registered := mark (p.call .clockInit i) i true g.registered
          main := .clockInit (i + 1) }
  | clockInitDone {i} : g.main = .clockInit i → ¬ i < p.ncpus →
      TestStep p g .own { g with main := .wallclock 0 }
  | wallclockSkip {i} : g.main = .wallclock i → i < p.ncpus → p.call .wallclock i = false →
      TestStep p g .own { g with main := .wallclock (i + 1) }
  | wallclockDone {i} : g.main = .wallclock i → ¬ i < p.ncpus →
      TestStep p g .own { g with main := .setFlags 0 }
  | bootTime {i sec nsec} : g.main = .wallclock i → i < p.ncpus → p.call .wallclock i = true →
      TestStep p g (.bootTime sec nsec) { g with main := .wallclockRead i sec nsec .retry }
  | wallclockRead {i sec nsec c e clock c'} : g.main = .wallclockRead i sec nsec c →
      pvclockClocksourceRead g.clock c e = some (clock, c') →
      TestStep p g (.clock e) { g with clock := clock, main := .wallclockRead i sec nsec c' }
  | wallclockValue {i sec nsec c} {ksec : ℤ} : g.main = .wallclockRead i sec nsec c →
      TestStep p g .own { g with main := .wallclockPrint i ksec .retry }
  | wallclockPrintRead {i ksec c e clock c'} : g.main = .wallclockPrint i ksec c →
      pvclockClocksourceRead g.clock c e = some (clock, c') →
      TestStep p g (.clock e) { g with clock := clock, main := .wallclockPrint i ksec c' }
  | wallclockPrint {i ksec c} : g.main = .wallclockPrint i ksec c →
      TestStep p g .own
        { g with
          nerr := wallclockTest ksec g.nerr
          wallclocked := mark true i true g.wallclocked
          main := .wallclock (i + 1) }
  | setFlags {k} : g.main = .setFlags k →
      TestStep p g .own
        { g with clock := pvclockSetFlags (phaseFlags k) g.clock, main := .cycle k .setNcpus }
  | cycle {k pc q pc'} : g.main = .cycle k pc →
      cycleTest (p.cycleArgs k) (g.phases k) pc = some (q, pc') →
      TestStep p g .own { g with phases := Function.update g.phases k q, main := .cycle k pc' }
  | cycleReturn {k printed result} : g.main = .cycle k (.returned printed result) →
      TestStep p g .own (afterCycle k printed result g)
  | clockClear {i} : g.main = .clockClear i → i < p.ncpus →
      TestStep p g .own
        { g with
          registered := mark (p.call .clockClear i) i false g.registered
          main := .clockClear (i + 1) }
  | clockClearDone {i} : g.main = .clockClear i → ¬ i < p.ncpus →
      TestStep p g .own { g with main := .exited }

theorem testKvmClock_own {p : Platform} {g g' : TestMem} (h : testKvmClock p g .own = some g') :
    TestStep p g .own g' := by
  cases hmain : g.main with
  | clockInit i =>
    simp only [testKvmClock, hmain, Option.some.injEq] at h
    subst h
    split_ifs with hi
    · exact .clockInit hmain hi
    · exact .clockInitDone hmain hi
  | wallclock i =>
    simp only [testKvmClock, hmain] at h
    split_ifs at h with hi hcall
    · cases h
      exact .wallclockSkip hmain hi (by simpa using hcall)
    · cases h
      exact .wallclockDone hmain hi
  | wallclockRead i sec nsec c =>
    simp only [testKvmClock, hmain, Option.map_eq_some_iff] at h
    obtain ⟨v, -, rfl⟩ := h
    exact .wallclockValue hmain
  | wallclockPrint i ksec c =>
    simp only [testKvmClock, hmain, Option.map_eq_some_iff] at h
    obtain ⟨v, -, rfl⟩ := h
    exact .wallclockPrint hmain
  | setFlags k =>
    simp only [testKvmClock, hmain, Option.some.injEq] at h
    subst h
    exact .setFlags hmain
  | cycle k pc =>
    cases pc with
    | returned printed result =>
      simp only [testKvmClock, hmain, Option.some.injEq] at h
      subst h
      exact .cycleReturn hmain
    | _ =>
      simp only [testKvmClock, hmain, Option.map_eq_some_iff] at h
      obtain ⟨⟨q, pc'⟩, hq, rfl⟩ := h
      exact .cycle hmain hq
  | clockClear i =>
    simp only [testKvmClock, hmain, Option.some.injEq] at h
    subst h
    split_ifs with hi
    · exact .clockClear hmain hi
    · exact .clockClearDone hmain hi
  | exited => simp [testKvmClock, hmain] at h

theorem testKvmClock_step {p : Platform} {g g' : TestMem} {e : TestEvent}
    (h : testKvmClock p g e = some g') : TestStep p g e g' := by
  cases e with
  | own => exact testKvmClock_own h
  | bootTime sec nsec =>
    cases hmain : g.main <;> simp only [testKvmClock, hmain, reduceCtorEq] at h
    case wallclock i =>
      obtain ⟨⟨hi, hcall⟩, rfl⟩ := by simpa using h
      exact .bootTime hmain hi hcall
  | clock e =>
    cases hmain : g.main <;> simp only [testKvmClock, hmain, reduceCtorEq,
      Option.map_eq_some_iff] at h
    case wallclockRead i sec nsec c =>
      obtain ⟨⟨clock, c'⟩, hread, rfl⟩ := h
      exact .wallclockRead hmain hread
    case wallclockPrint i ksec c =>
      obtain ⟨⟨clock, c'⟩, hread, rfl⟩ := h
      exact .wallclockPrintRead hmain hread

/-- Inside of a phase the main thread steps as `cycle_test` does. -/
theorem testKvmClock_cycle {p : Platform} {g : TestMem} {k : Fin 4} {pc pc' : CyclePc}
    {q : PhaseState pvclock} (hmain : g.main = .cycle k pc)
    (hq : cycleTest (p.cycleArgs k) (g.phases k) pc = some (q, pc')) :
    testKvmClock p g .own =
      some { g with phases := Function.update g.phases k q, main := .cycle k pc' } := by
  cases pc with
  | returned printed result => cases hq
  | _ => simp only [testKvmClock, hmain, hq, Option.map_some]

theorem return_step {p : Platform} {k : Fin 4} {printed : Option Totals} {result : ℤ}
    {s : TestState} (hmain : s.shared.main = .cycle k (.returned printed result)) :
    (test p).machine.run s [.env .own] =
      some ⟨afterCycle k printed result s.shared, s.locals⟩ :=
  Threads.env_run (by simp only [test, testKvmClock, hmain])

theorem test_thread {p : Platform} {k : Fin 4} {cpu : ℕ} {e : WorkerEvent pvclock}
    {g g' : TestMem} {w w' : Worker pvclock} (h : (test p).thread (k, cpu) e g w = some (g', w')) :
    ∃ m : Mem pvclock, kvmClockTest p.loops cpu ⟨g.phases k, g.clock⟩ w e = some (m, w') ∧
      g' = { g with phases := Function.update g.phases k m.toPhaseState, clock := m.clock } := by
  obtain ⟨⟨m, u⟩, hm, he⟩ := Option.map_eq_some_iff.mp h
  cases he
  exact ⟨m, hm, rfl⟩

theorem kvmClockTest_validFlags {loops cpu : ℕ} {m m' : Mem pvclock} {w w' : Worker pvclock}
    {e : WorkerEvent pvclock} (h : kvmClockTest loops cpu m w e = some (m', w')) :
    m'.clock.validFlags = m.clock.validFlags := by
  cases kvmClockTest_step h
  case plainRead check i c e g c' hread => exact pvclockClocksourceRead_validFlags hread
  case firstRead check i c e g c' hread => exact pvclockClocksourceRead_validFlags hread
  case secondRead check i first t1 t0 c e g c' hread =>
    exact pvclockClocksourceRead_validFlags hread
  all_goals rfl

/-! ## Concrete runs -/

/-- A step of a phase as a step of the whole test. -/
def inPhase (k : Fin 4) : CycleAction pvclock → TestAction
  | .thread cpu e => .thread (k, cpu) e
  | .env _ => .env .own

/-- A clock read of the main thread with `n` accesses after the sample. -/
def mainRead (x : Sample) (n : ℕ) : List TestAction :=
  .env (.clock (.sample x)) :: List.replicate n (.env (.clock .proceed))

/-- The main thread up to the first `cycle_test`, on one CPU whose clock stands at zero. -/
def prologue : List TestAction :=
  [.env .own, .env .own, .env (.bootTime 2 0)] ++ mainRead ⟨0, 0⟩ 3 ++ [.env .own] ++
    mainRead ⟨0, 0⟩ 3 ++ List.replicate 3 (.env .own)

end PcmTest.Kvmclock
