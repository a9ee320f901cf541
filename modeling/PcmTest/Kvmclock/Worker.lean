import PcmTest.Kvmclock.Clocksource

/-!
# The worker of kvmclock_test.c

`kvm_clock_test` cut at its shared accesses: the load of `check`, lock and unlock,
the accesses of the two clock reads, the load and the store of `last`, and the
loads and stores of the counters. Branches on locals are steps of their own, which
touch nothing shared. The clock is a parameter, so that results about the counters
hold for every clock, and `pvclock` is the clock of the file.
-/

namespace PcmTest.Kvmclock

/-- A clock that is read in atomic steps: a call starts at `start`, and its value is
there once it has returned. -/
structure Clock where
  Shared : Type
  Call : Type
  Event : Type
  start : Call
  step : Shared → Call → Event → Option (Shared × Call)
  value? : Call → Option U64

/-- `kvm_clock_read`: a call of `pvclock_clocksource_read` on this CPU's `hv_clock`. -/
abbrev pvclock : Clock where
  Shared := ClockStatics
  Call := ReadCall
  Event := ReadEvent
  start := .retry
  step := pvclockClocksourceRead
  value? := ReadCall.value?

/-- `struct test_info`. The spin lock is the CPU that holds it. -/
structure TestInfo where
  lock : Option ℕ
  warps : U64
  stalls : U64
  worst : ℤ
  last : U64
  ncpus : ℤ
  check : ℤ
  deriving DecidableEq, Repr

def TestInfo.zero : TestInfo := ⟨none, 0, 0, 0, 0, 0, 0⟩

/-- The `u64` difference `t1 - t0` read as `long long`. -/
def clockDelta (t1 t0 : U64) : ℤ := (t1 - t0).toInt

/-- What one pass through the first critical section did. -/
structure Section (K : Clock) where
  cpu : ℕ
  iter : ℕ
  first : K.Call
  t1 : U64
  t0 : U64
  second : K.Call
  next : U64

def Section.delta {K : Clock} (e : Section K) : ℤ := clockDelta e.t1 e.t0

/-- What the workers of one `cycle_test` call share besides the clock: the `test_info`,
the pending cross calls of `smp_call_function_single`, and as history the critical
sections left so far, latest first. -/
structure PhaseState (K : Clock) where
  ti : TestInfo
  queued : ℕ → Bool
  log : List (Section K)

structure Mem (K : Clock) extends PhaseState K where
  clock : K.Shared

/-- Program points of `kvm_clock_test`, with the locals that are live there. -/
inductive Pc (K : Clock) where
  | idle
  | loadCheck
  | loopTest
  | plainRead (c : K.Call)
  | acquire
  | firstRead (c : K.Call)
  | loadLast (first : K.Call) (t1 : U64)
  | secondRead (first : K.Call) (t1 t0 : U64) (c : K.Call)
  | storeLast (e : Section K)
  | release (e : Section K)
  | warpTest (delta : ℤ)
  | acquireWarp (delta : ℤ)
  | loadWarps (delta : ℤ)
  | storeWarps (delta : ℤ) (warps : U64)
  | worstTest (delta : ℤ)
  | storeWorst (delta : ℤ)
  | releaseWarp (delta : ℤ)
  | stallTest (delta : ℤ)
  | loadStalls
  | storeStalls (stalls : U64)
  | decNcpus
  | done

/-- A worker: the locals `check` and `i`, and its program point. -/
structure Worker (K : Clock) where
  check : ℤ
  i : ℕ
  pc : Pc K

def Worker.idle (K : Clock) : Worker K := ⟨0, 0, .idle⟩

def Worker.next {K : Clock} (w : Worker K) : Worker K := { w with i := w.i + 1, pc := .loopTest }

/-- A step is one access of a clock read, or one step of the worker's own code. -/
inductive WorkerEvent (K : Clock) where
  | clock (e : K.Event)
  | own

variable {K : Clock}

/-- One access of the clock read `c`; `pc` puts the call back into the program point. -/
def Worker.clockStep (m : Mem K) (w : Worker K) (c : K.Call) (e : K.Event) (pc : K.Call → Pc K) :
    Option (Mem K × Worker K) :=
  (K.step m.clock c e).map fun r => ({ m with clock := r.1 }, { w with pc := pc r.2 })

/-- One step of `kvm_clock_test` on CPU `cpu`, for the global `loops`. -/
def kvmClockTest (loops cpu : ℕ) (m : Mem K) (w : Worker K) :
    WorkerEvent K → Option (Mem K × Worker K)
  | .clock e =>
    match w.pc with
    | .plainRead c => w.clockStep m c e .plainRead
    | .firstRead c => w.clockStep m c e .firstRead
    | .secondRead first t1 t0 c => w.clockStep m c e (.secondRead first t1 t0)
    | _ => none
  | .own =>
    match w.pc with
    | .idle =>
      if m.queued cpu then
        some ({ m with queued := Function.update m.queued cpu false }, { w with pc := .loadCheck })
      else none
    | .loadCheck => some (m, { check := m.ti.check, i := 0, pc := .loopTest })
    | .loopTest =>
      some (m, { w with pc :=
        if w.i < loops then if w.check = 0 then .plainRead K.start else .acquire else .decNcpus })
    | .plainRead c => (K.value? c).map fun _ => (m, w.next)
    | .acquire =>
      if m.ti.lock = none then
        some ({ m with ti.lock := some cpu }, { w with pc := .firstRead K.start })
      else none
    | .firstRead c => (K.value? c).map fun t1 => (m, { w with pc := .loadLast c t1 })
    | .loadLast first t1 =>
      some (m, { w with pc := .secondRead first t1 m.ti.last K.start })
    | .secondRead first t1 t0 c =>
      (K.value? c).map fun next =>
        (m, { w with pc := .storeLast ⟨cpu, w.i, first, t1, t0, c, next⟩ })
    | .storeLast e => some ({ m with ti.last := e.next }, { w with pc := .release e })
    | .release e =>
      some ({ m with ti.lock := none, log := e :: m.log }, { w with pc := .warpTest e.delta })
    | .warpTest delta =>
      some (m, { w with pc := if delta < 0 then .acquireWarp delta else .stallTest delta })
    | .acquireWarp delta =>
      if m.ti.lock = none then
        some ({ m with ti.lock := some cpu }, { w with pc := .loadWarps delta })
      else none
    | .loadWarps delta => some (m, { w with pc := .storeWarps delta m.ti.warps })
    | .storeWarps delta warps =>
      some ({ m with ti.warps := warps + 1 }, { w with pc := .worstTest delta })
    | .worstTest delta =>
      some (m, { w with pc :=
        if delta < m.ti.worst then .storeWorst delta else .releaseWarp delta })
    | .storeWorst delta =>
      some ({ m with ti.worst := delta }, { w with pc := .releaseWarp delta })
    | .releaseWarp delta => some ({ m with ti.lock := none }, { w with pc := .stallTest delta })
    | .stallTest delta =>
      some (m, if delta = 0 then { w with pc := .loadStalls } else w.next)
    | .loadStalls => some (m, { w with pc := .storeStalls m.ti.stalls })
    | .storeStalls stalls => some ({ m with ti.stalls := stalls + 1 }, w.next)
    | .decNcpus => some ({ m with ti.ncpus := m.ti.ncpus - 1 }, { w with pc := .done })
    | .done => none

/-- Everything a step of `kvm_clock_test` can do, one constructor for each program point
and outcome; the proofs about workers case on this. -/
inductive WorkerStep (loops cpu : ℕ) (m : Mem K) :
    Worker K → WorkerEvent K → Mem K → Worker K → Prop
  | plainRead {check i c e g c'} : K.step m.clock c e = some (g, c') →
      WorkerStep loops cpu m ⟨check, i, .plainRead c⟩ (.clock e) { m with clock := g }
        ⟨check, i, .plainRead c'⟩
  | firstRead {check i c e g c'} : K.step m.clock c e = some (g, c') →
      WorkerStep loops cpu m ⟨check, i, .firstRead c⟩ (.clock e) { m with clock := g }
        ⟨check, i, .firstRead c'⟩
  | secondRead {check i first t1 t0 c e g c'} : K.step m.clock c e = some (g, c') →
      WorkerStep loops cpu m ⟨check, i, .secondRead first t1 t0 c⟩ (.clock e)
        { m with clock := g } ⟨check, i, .secondRead first t1 t0 c'⟩
  | startCall {check i} : m.queued cpu = true →
      WorkerStep loops cpu m ⟨check, i, .idle⟩ .own
        { m with queued := Function.update m.queued cpu false } ⟨check, i, .loadCheck⟩
  | loadCheck {check i} : WorkerStep loops cpu m ⟨check, i, .loadCheck⟩ .own m
      ⟨m.ti.check, 0, .loopTest⟩
  | plainIter {i} : i < loops → WorkerStep loops cpu m ⟨0, i, .loopTest⟩ .own m
      ⟨0, i, .plainRead K.start⟩
  | checkIter {check i} : i < loops → check ≠ 0 →
      WorkerStep loops cpu m ⟨check, i, .loopTest⟩ .own m ⟨check, i, .acquire⟩
  | leaveLoop {check i} : ¬ i < loops →
      WorkerStep loops cpu m ⟨check, i, .loopTest⟩ .own m ⟨check, i, .decNcpus⟩
  | plainDone {check i c v} : K.value? c = some v →
      WorkerStep loops cpu m ⟨check, i, .plainRead c⟩ .own m ⟨check, i + 1, .loopTest⟩
  | acquire {check i} : m.ti.lock = none →
      WorkerStep loops cpu m ⟨check, i, .acquire⟩ .own { m with ti.lock := some cpu }
        ⟨check, i, .firstRead K.start⟩
  | firstDone {check i c t1} : K.value? c = some t1 →
      WorkerStep loops cpu m ⟨check, i, .firstRead c⟩ .own m ⟨check, i, .loadLast c t1⟩
  | loadLast {check i first t1} :
      WorkerStep loops cpu m ⟨check, i, .loadLast first t1⟩ .own m
        ⟨check, i, .secondRead first t1 m.ti.last K.start⟩
  | secondDone {check i first t1 t0 c next} : K.value? c = some next →
      WorkerStep loops cpu m ⟨check, i, .secondRead first t1 t0 c⟩ .own m
        ⟨check, i, .storeLast ⟨cpu, i, first, t1, t0, c, next⟩⟩
  | storeLast {check i e} :
      WorkerStep loops cpu m ⟨check, i, .storeLast e⟩ .own { m with ti.last := e.next }
        ⟨check, i, .release e⟩
  | release {check i e} :
      WorkerStep loops cpu m ⟨check, i, .release e⟩ .own
        { m with ti.lock := none, log := e :: m.log } ⟨check, i, .warpTest e.delta⟩
  | warpFound {check i delta} : delta < 0 →
      WorkerStep loops cpu m ⟨check, i, .warpTest delta⟩ .own m ⟨check, i, .acquireWarp delta⟩
  | warpAbsent {check i delta} : ¬ delta < 0 →
      WorkerStep loops cpu m ⟨check, i, .warpTest delta⟩ .own m ⟨check, i, .stallTest delta⟩
  | acquireWarp {check i delta} : m.ti.lock = none →
      WorkerStep loops cpu m ⟨check, i, .acquireWarp delta⟩ .own { m with ti.lock := some cpu }
        ⟨check, i, .loadWarps delta⟩
  | loadWarps {check i delta} :
      WorkerStep loops cpu m ⟨check, i, .loadWarps delta⟩ .own m
        ⟨check, i, .storeWarps delta m.ti.warps⟩
  | storeWarps {check i delta warps} :
      WorkerStep loops cpu m ⟨check, i, .storeWarps delta warps⟩ .own
        { m with ti.warps := warps + 1 } ⟨check, i, .worstTest delta⟩
  | worstFound {check i delta} : delta < m.ti.worst →
      WorkerStep loops cpu m ⟨check, i, .worstTest delta⟩ .own m ⟨check, i, .storeWorst delta⟩
  | worstKept {check i delta} : ¬ delta < m.ti.worst →
      WorkerStep loops cpu m ⟨check, i, .worstTest delta⟩ .own m ⟨check, i, .releaseWarp delta⟩
  | storeWorst {check i delta} :
      WorkerStep loops cpu m ⟨check, i, .storeWorst delta⟩ .own { m with ti.worst := delta }
        ⟨check, i, .releaseWarp delta⟩
  | releaseWarp {check i delta} :
      WorkerStep loops cpu m ⟨check, i, .releaseWarp delta⟩ .own { m with ti.lock := none }
        ⟨check, i, .stallTest delta⟩
  | stallFound {check i} :
      WorkerStep loops cpu m ⟨check, i, .stallTest 0⟩ .own m ⟨check, i, .loadStalls⟩
  | stallAbsent {check i delta} : delta ≠ 0 →
      WorkerStep loops cpu m ⟨check, i, .stallTest delta⟩ .own m ⟨check, i + 1, .loopTest⟩
  | loadStalls {check i} :
      WorkerStep loops cpu m ⟨check, i, .loadStalls⟩ .own m ⟨check, i, .storeStalls m.ti.stalls⟩
  | storeStalls {check i stalls} :
      WorkerStep loops cpu m ⟨check, i, .storeStalls stalls⟩ .own
        { m with ti.stalls := stalls + 1 } ⟨check, i + 1, .loopTest⟩
  | decNcpus {check i} :
      WorkerStep loops cpu m ⟨check, i, .decNcpus⟩ .own
        { m with ti.ncpus := m.ti.ncpus - 1 } ⟨check, i, .done⟩

theorem clockStep_some {m m' : Mem K} {w w' : Worker K} {c : K.Call} {e : K.Event}
    {pc : K.Call → Pc K} (h : w.clockStep m c e pc = some (m', w')) :
    ∃ g c', K.step m.clock c e = some (g, c') ∧ m' = { m with clock := g } ∧
      w' = { w with pc := pc c' } := by
  obtain ⟨⟨g, c'⟩, hc, he⟩ := Option.map_eq_some_iff.mp h
  cases he
  exact ⟨g, c', hc, rfl, rfl⟩

theorem kvmClockTest_step {loops cpu : ℕ} {m m' : Mem K} {w w' : Worker K} {e : WorkerEvent K}
    (h : kvmClockTest loops cpu m w e = some (m', w')) : WorkerStep loops cpu m w e m' w' := by
  obtain ⟨check, i, pc⟩ := w
  cases e with
  | clock e =>
    cases pc <;> simp only [kvmClockTest, reduceCtorEq] at h
    case plainRead c =>
      obtain ⟨g, c', hc, rfl, rfl⟩ := clockStep_some h
      exact .plainRead hc
    case firstRead c =>
      obtain ⟨g, c', hc, rfl, rfl⟩ := clockStep_some h
      exact .firstRead hc
    case secondRead first t1 t0 c =>
      obtain ⟨g, c', hc, rfl, rfl⟩ := clockStep_some h
      exact .secondRead hc
  | own =>
    cases pc <;> simp only [kvmClockTest, reduceCtorEq, Option.some.injEq, Prod.mk.injEq,
      Option.map_eq_some_iff, Option.ite_none_right_eq_some] at h
    case idle =>
      obtain ⟨hq, rfl, rfl⟩ := h
      exact .startCall hq
    case loadCheck =>
      obtain ⟨rfl, rfl⟩ := h
      exact .loadCheck
    case loopTest =>
      obtain ⟨rfl, rfl⟩ := h
      split_ifs with hi hcheck
      · subst hcheck
        exact .plainIter hi
      · exact .checkIter hi hcheck
      · exact .leaveLoop hi
    case plainRead c =>
      obtain ⟨v, hv, rfl, rfl⟩ := h
      exact .plainDone hv
    case acquire =>
      obtain ⟨hlock, rfl, rfl⟩ := h
      exact .acquire hlock
    case firstRead c =>
      obtain ⟨t1, hv, rfl, rfl⟩ := h
      exact .firstDone hv
    case loadLast first t1 =>
      obtain ⟨rfl, rfl⟩ := h
      exact .loadLast
    case secondRead first t1 t0 c =>
      obtain ⟨next, hv, rfl, rfl⟩ := h
      exact .secondDone hv
    case storeLast e =>
      obtain ⟨rfl, rfl⟩ := h
      exact .storeLast
    case release e =>
      obtain ⟨rfl, rfl⟩ := h
      exact .release
    case warpTest delta =>
      obtain ⟨rfl, rfl⟩ := h
      split_ifs with hd
      · exact .warpFound hd
      · exact .warpAbsent hd
    case acquireWarp delta =>
      obtain ⟨hlock, rfl, rfl⟩ := h
      exact .acquireWarp hlock
    case loadWarps delta =>
      obtain ⟨rfl, rfl⟩ := h
      exact .loadWarps
    case storeWarps delta warps =>
      obtain ⟨rfl, rfl⟩ := h
      exact .storeWarps
    case worstTest delta =>
      obtain ⟨rfl, rfl⟩ := h
      split_ifs with hd
      · exact .worstFound hd
      · exact .worstKept hd
    case storeWorst delta =>
      obtain ⟨rfl, rfl⟩ := h
      exact .storeWorst
    case releaseWarp delta =>
      obtain ⟨rfl, rfl⟩ := h
      exact .releaseWarp
    case stallTest delta =>
      obtain ⟨rfl, rfl⟩ := h
      split_ifs with hd
      · subst hd
        exact .stallFound
      · exact .stallAbsent hd
    case loadStalls =>
      obtain ⟨rfl, rfl⟩ := h
      exact .loadStalls
    case storeStalls stalls =>
      obtain ⟨rfl, rfl⟩ := h
      exact .storeStalls
    case decNcpus =>
      obtain ⟨rfl, rfl⟩ := h
      exact .decNcpus

end PcmTest.Kvmclock
