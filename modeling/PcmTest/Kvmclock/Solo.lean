import PcmTest.Kvmclock.Phases

/-!
# A worker alone on a standing clock

On one CPU, with every sample the value that `last` holds, the loop of `kvm_clock_test`
goes through without a warp. So every started `cycle_test` of one CPU has a run to its
return, whatever its `test_info` held before.
-/

namespace PcmTest.Kvmclock

open Theory

variable {loops : ℕ} {v : U64} {flags : U8}

/-- One call of `pvclock_clocksource_read` without other callers. -/
def readMachine : Machine (ClockStatics × ReadCall) ReadEvent where
  step s e := pvclockClocksourceRead s.1 s.2 e

/-- One worker without other workers. -/
def solo (loops cpu : ℕ) : Machine (Mem pvclock × Worker pvclock) (WorkerEvent pvclock) where
  step s e := kvmClockTest loops cpu s.1 s.2 e

/-- A call that samples `v` with `flags` returns `v` and leaves the clock as it is. -/
def Standing (v : U64) (flags : U8) (g : ClockStatics) : Prop :=
  stablePath g.validFlags flags = true ∨ g.lastValue = v

theorem standing_read {g : ClockStatics} (h : Standing v flags g) :
    ∃ n path, readMachine.run (g, .retry) (.sample ⟨v, flags⟩ :: List.replicate n .proceed) =
      some (g, .returned path v v) := by
  by_cases hstable : stablePath g.validFlags flags = true
  · refine ⟨1, .fast, ?_⟩
    simp [Machine.run, readMachine, pvclockClocksourceRead, hstable]
  · have hlast : g.lastValue = v := h.resolve_left hstable
    have hhead : loopHead v v = .swap v v := if_neg (BitVec.lt_irrefl v)
    have htest : loopTest v v = .returned .slow v v := if_neg (not_not.mpr rfl)
    have hsame : ({ g with lastValue := v } : ClockStatics) = g := by rw [← hlast]
    refine ⟨3, .slow, ?_⟩
    simp [List.replicate, Machine.run, readMachine, pvclockClocksourceRead, hstable, hlast, hhead,
      htest, atomic64Cmpxchg, hsame]

/-- The read of a worker at a program point that holds a call. -/
theorem solo_read (loops cpu : ℕ) (check : ℤ) (i : ℕ) (f : ReadCall → Pc pvclock)
    (hf : ∀ m c e, kvmClockTest loops cpu m ⟨check, i, f c⟩ (.clock e) =
      Worker.clockStep m ⟨check, i, f c⟩ c e f)
    {es : List ReadEvent} {m : Mem pvclock} {c c' : ReadCall} {g : ClockStatics}
    (h : readMachine.run (m.clock, c) es = some (g, c')) :
    (solo loops cpu).run (m, ⟨check, i, f c⟩) (es.map .clock) =
      some ({ m with clock := g }, ⟨check, i, f c'⟩) := by
  induction es generalizing m c with
  | nil =>
    cases h
    rfl
  | cons e es ih =>
    obtain ⟨⟨g₁, c₁⟩, hstep, hrest⟩ := Machine.run_cons_some _ h
    have hread : pvclockClocksourceRead m.clock c e = some (g₁, c₁) := hstep
    have hwork : (solo loops cpu).step (m, ⟨check, i, f c⟩) (.clock e) =
        some ({ m with clock := g₁ }, ⟨check, i, f c₁⟩) := by
      change kvmClockTest loops cpu m ⟨check, i, f c⟩ (.clock e) = _
      rw [hf]
      change (pvclockClocksourceRead m.clock c e).map _ = _
      rw [hread]
      rfl
    exact Machine.run_trans (Machine.run_single hwork) (ih (m := { m with clock := g₁ }) hrest)

/-- What happens to the memory while a worker runs on a standing clock. -/
structure Stood (m m' : Mem pvclock) : Prop where
  clock : m'.clock = m.clock
  ti : m'.ti = { m.ti with
    stalls := m'.ti.stalls, ncpus := m'.ti.ncpus, check := m'.ti.check }
  log : ∃ new, m'.log = new ++ m.log ∧ ∀ e ∈ new, e.delta = 0

theorem Stood.refl (m : Mem pvclock) : Stood m m :=
  ⟨rfl, rfl, [], rfl, by simp⟩

theorem Stood.trans {m₁ m₂ m₃ : Mem pvclock} (h₁ : Stood m₁ m₂) (h₂ : Stood m₂ m₃) :
    Stood m₁ m₃ := by
  obtain ⟨new₁, hlog₁, hzero₁⟩ := h₁.log
  obtain ⟨new₂, hlog₂, hzero₂⟩ := h₂.log
  refine ⟨h₂.clock.trans h₁.clock, ?_, new₂ ++ new₁, ?_, ?_⟩
  · rw [h₂.ti, h₁.ti]
  · rw [hlog₂, hlog₁, List.append_assoc]
  · intro e he
    rcases List.mem_append.mp he with he | he
    · exact hzero₂ e he
    · exact hzero₁ e he

/-- The memory is ready for a standing section. -/
structure Ready (v : U64) (flags : U8) (m : Mem pvclock) : Prop where
  standing : Standing v flags m.clock
  last : m.ti.last = v
  lock : m.ti.lock = none

theorem Ready.stood {m m' : Mem pvclock} (h : Ready v flags m) (hm : Stood m m') :
    Ready v flags m' := by
  refine ⟨?_, ?_, ?_⟩
  · rw [hm.clock]
    exact h.standing
  · rw [hm.ti]
    exact h.last
  · rw [hm.ti]
    exact h.lock

theorem clockDelta_self (t : U64) : clockDelta t t = 0 := by
  simp [clockDelta]

/-- The worker's steps sample nothing but `v` with `flags`. -/
def Samples (v : U64) (flags : U8) (es : List (WorkerEvent pvclock)) : Prop :=
  ∀ e ∈ es, ∀ x, e = .clock (.sample x) → x = ⟨v, flags⟩

theorem Samples.append {es₁ es₂ : List (WorkerEvent pvclock)} (h₁ : Samples v flags es₁)
    (h₂ : Samples v flags es₂) : Samples v flags (es₁ ++ es₂) := by
  intro e he
  rcases List.mem_append.mp he with he | he
  · exact h₁ e he
  · exact h₂ e he

theorem samples_own (n : ℕ) : Samples v flags (List.replicate n .own) := by
  rintro e he x rfl
  cases List.eq_of_mem_replicate he

theorem samples_read (n : ℕ) :
    Samples v flags ((ReadEvent.sample ⟨v, flags⟩ :: List.replicate n .proceed).map .clock) := by
  intro e he x hx
  rw [List.map_cons, List.mem_cons, List.map_replicate] at he
  rcases he with rfl | he
  · cases hx
    rfl
  · cases hx.symm.trans (List.eq_of_mem_replicate he)

/-- After a section whose `delta` is zero, the worker only counts a stall. -/
theorem solo_stall (loops cpu : ℕ) (m : Mem pvclock) (check : ℤ) (i : ℕ) :
    (solo loops cpu).run (m, ⟨check, i, .warpTest 0⟩) (List.replicate 4 .own) =
      some ({ m with ti.stalls := m.ti.stalls + 1 }, ⟨check, i + 1, .loopTest⟩) := rfl

/-- One iteration with `check`: a section with `delta` zero, and a stall. -/
theorem standing_section (cpu : ℕ) {m : Mem pvclock} {check : ℤ} {i : ℕ} (hm : Ready v flags m)
    (hi : i < loops) (hcheck : check ≠ 0) :
    ∃ es m', Samples v flags es ∧ Stood m m' ∧ m'.ti.ncpus = m.ti.ncpus ∧
      (solo loops cpu).run (m, ⟨check, i, .loopTest⟩) es =
        some (m', ⟨check, i + 1, .loopTest⟩) := by
  obtain ⟨n, path, hread⟩ := standing_read hm.standing
  let call : ReadCall := .returned path v v
  let m₁ : Mem pvclock := { m with ti.lock := some cpu }
  let e : Section pvclock := ⟨cpu, i, call, v, v, call, v⟩
  let m₃ : Mem pvclock :=
    { m with ti := { m.ti with lock := none, last := v }, log := e :: m.log }
  let m₂ : Mem pvclock := { m₃ with ti.stalls := m.ti.stalls + 1 }
  have hdelta : e.delta = 0 := clockDelta_self v
  have h₁ : (solo loops cpu).run (m, ⟨check, i, .loopTest⟩) (List.replicate 2 .own) =
      some (m₁, ⟨check, i, .firstRead .retry⟩) := by
    simp [List.replicate, Machine.run, solo, kvmClockTest, hi, hcheck, hm.lock, m₁, pvclock]
  have h₂ : (solo loops cpu).run (m₁, ⟨check, i, .firstRead .retry⟩)
      ((ReadEvent.sample ⟨v, flags⟩ :: List.replicate n .proceed).map .clock) =
      some (m₁, ⟨check, i, .firstRead call⟩) :=
    solo_read loops cpu check i (Pc.firstRead (K := pvclock)) (m := m₁) (fun _ _ _ => rfl) hread
  have h₃ : (solo loops cpu).run (m₁, ⟨check, i, .firstRead call⟩) (List.replicate 2 .own) =
      some (m₁, ⟨check, i, .secondRead call v v .retry⟩) := by
    simp [List.replicate, Machine.run, solo, kvmClockTest, hm.last, m₁, pvclock, call,
      ReadCall.value?]
  have h₄ : (solo loops cpu).run (m₁, ⟨check, i, .secondRead call v v .retry⟩)
      ((ReadEvent.sample ⟨v, flags⟩ :: List.replicate n .proceed).map .clock) =
      some (m₁, ⟨check, i, .secondRead call v v call⟩) :=
    solo_read loops cpu check i (Pc.secondRead (K := pvclock) call v v) (m := m₁)
      (fun _ _ _ => rfl) hread
  have h₅ : (solo loops cpu).run (m₁, ⟨check, i, .secondRead call v v call⟩)
      (List.replicate 3 .own) = some (m₃, ⟨check, i, .warpTest e.delta⟩) := rfl
  have h₆ : (solo loops cpu).run (m₃, ⟨check, i, .warpTest e.delta⟩) (List.replicate 4 .own) =
      some (m₂, ⟨check, i + 1, .loopTest⟩) := by
    rw [hdelta]
    exact solo_stall loops cpu m₃ check i
  refine ⟨_, m₂, ?_, ⟨rfl, ?_, [e], rfl, by simpa using hdelta⟩, rfl,
    Machine.run_trans h₁ (Machine.run_trans h₂ (Machine.run_trans h₃ (Machine.run_trans h₄
      (Machine.run_trans h₅ h₆))))⟩
  · exact (samples_own 2).append ((samples_read n).append ((samples_own 2).append
      ((samples_read n).append ((samples_own 3).append (samples_own 4)))))
  · simp only [m₂, m₃, ← hm.last, ← hm.lock]

/-- One iteration without `check`: a read, and nothing else. -/
theorem standing_plain (cpu : ℕ) {m : Mem pvclock} {i : ℕ} (hm : Ready v flags m) (hi : i < loops) :
    ∃ es, Samples v flags es ∧
      (solo loops cpu).run (m, ⟨0, i, .loopTest⟩) es = some (m, ⟨0, i + 1, .loopTest⟩) := by
  obtain ⟨n, path, hread⟩ := standing_read hm.standing
  have h₁ : (solo loops cpu).run (m, ⟨0, i, .loopTest⟩) (List.replicate 1 .own) =
      some (m, ⟨0, i, .plainRead .retry⟩) := by
    simp [List.replicate, Machine.run, solo, kvmClockTest, hi]
  have h₂ : (solo loops cpu).run (m, ⟨0, i, .plainRead .retry⟩)
      ((ReadEvent.sample ⟨v, flags⟩ :: List.replicate n .proceed).map .clock) =
      some (m, ⟨0, i, .plainRead (.returned path v v)⟩) :=
    solo_read loops cpu 0 i (Pc.plainRead (K := pvclock)) (m := m) (fun _ _ _ => rfl) hread
  have h₃ : (solo loops cpu).run (m, ⟨0, i, .plainRead (.returned path v v)⟩)
      (List.replicate 1 .own) = some (m, ⟨0, i + 1, .loopTest⟩) := by
    simp [List.replicate, Machine.run, solo, kvmClockTest, ReadCall.value?, Worker.next]
  exact ⟨_, (samples_own 1).append ((samples_read n).append (samples_own 1)),
    Machine.run_trans h₁ (Machine.run_trans h₂ h₃)⟩

/-- The loop from any iteration on, by induction on the iterations that are left. -/
theorem standing_loop (loops cpu : ℕ) (check : ℤ) (left i : ℕ) (hleft : i + left = loops)
    {m : Mem pvclock} (hm : Ready v flags m) :
    ∃ es m', Samples v flags es ∧ Stood m m' ∧ m'.ti.ncpus = m.ti.ncpus ∧
      (solo loops cpu).run (m, ⟨check, i, .loopTest⟩) es =
        some (m', ⟨check, loops, .loopTest⟩) := by
  induction left generalizing i m with
  | zero =>
    obtain rfl : i = loops := hleft
    exact ⟨[], m, by simp [Samples], Stood.refl m, rfl, rfl⟩
  | succ left ih =>
    have hi : i < loops := by omega
    by_cases hcheck : check = 0
    · subst hcheck
      obtain ⟨es, hes, hrun⟩ := standing_plain cpu hm hi
      obtain ⟨es', m', hes', hm', hncpus, hrest⟩ := ih (i + 1) (by omega) hm
      exact ⟨es ++ es', m', hes.append hes', hm', hncpus, Machine.run_trans hrun hrest⟩
    · obtain ⟨es, m₁, hes, hm₁, hncpus₁, hrun⟩ := standing_section cpu hm hi hcheck
      obtain ⟨es', m', hes', hm', hncpus, hrest⟩ := ih (i + 1) (by omega) (hm.stood hm₁)
      exact ⟨es ++ es', m', hes.append hes', hm₁.trans hm', hncpus.trans hncpus₁,
        Machine.run_trans hrun hrest⟩

/-! ## The whole call -/

variable {a : CycleArgs}

/-- A run of one worker is a run of the call in which nobody else moves. -/
theorem solo_cycle {cpu : ℕ} {es : List (WorkerEvent pvclock)} {m m' : Mem pvclock}
    {w w' : Worker pvclock} (h : (solo a.loops cpu).run (m, w) es = some (m', w')) (main : CyclePc)
    (ws : ℕ → Worker pvclock) :
    (cycle pvclock a).machine.run ⟨⟨m, main⟩, Function.update ws cpu w⟩ (es.map (.thread cpu)) =
      some ⟨⟨m', main⟩, Function.update ws cpu w'⟩ := by
  induction es generalizing m w with
  | nil =>
    cases h
    rfl
  | cons e es ih =>
    obtain ⟨⟨m₁, w₁⟩, hstep, hrest⟩ := Machine.run_cons_some _ h
    have hwork : kvmClockTest a.loops cpu m w e = some (m₁, w₁) := hstep
    have hcycle : (cycle pvclock a).machine.step ⟨⟨m, main⟩, Function.update ws cpu w⟩
        (.thread cpu e) = some ⟨⟨m₁, main⟩, Function.update ws cpu w₁⟩ := by
      simp [Threads.machine, cycle, hwork]
    exact Machine.run_trans (Machine.run_single hcycle) (ih hrest)

theorem samples_append (tr₁ tr₂ : List (CycleAction pvclock)) :
    samples (tr₁ ++ tr₂) = samples tr₁ ++ samples tr₂ :=
  List.filterMap_append

theorem samples_thread {cpu : ℕ} {es : List (WorkerEvent pvclock)} (h : Samples v flags es) :
    ∀ x ∈ samples (es.map (.thread cpu)), x = ⟨v, flags⟩ := by
  intro x hx
  obtain ⟨y, hy, hyx⟩ := List.mem_filterMap.mp hx
  obtain ⟨e, he, rfl⟩ := List.mem_map.mp hy
  cases e with
  | own => cases hyx
  | clock e =>
    cases e with
    | proceed => cases hyx
    | sample y =>
      cases hyx
      exact h _ he _ rfl

theorem samples_caller (n : ℕ) : samples (callerSteps n) = [] := by
  simp [callerSteps, samples]

/-- The caller, once the counter is zero. -/
theorem caller_returns (a : CycleArgs) (m : Mem pvclock) (ws : ℕ → Worker pvclock)
    (hncpus : m.ti.ncpus = 0) :
    ∃ n printed result, (cycle pvclock a).machine.run ⟨⟨m, .wait⟩, ws⟩ (callerSteps n) =
      some ⟨⟨m, .returned printed result⟩, ws⟩ := by
  by_cases hcheck : a.check = 1
  · refine ⟨5, some ⟨m.ti.warps, m.ti.stalls, m.ti.worst⟩, if m.ti.warps ≠ 0 then 1 else 0, ?_⟩
    simp [callerSteps, List.replicate, Machine.run, Threads.machine, cycle, cycleTest, hncpus,
      hcheck]
  · refine ⟨2, none, if m.ti.warps ≠ 0 then 1 else 0, ?_⟩
    simp [callerSteps, List.replicate, Machine.run, Threads.machine, cycle, cycleTest, hncpus,
      hcheck]

/-- With the only worker at a loop test, the call has a run to its return. -/
theorem standing_finish {c : CycleState pvclock} {check : ℤ} {i : ℕ} (hmain : c.shared.main = .wait)
    (hworker : c.locals 0 = ⟨check, i, .loopTest⟩) (hi : i ≤ a.loops)
    (hready : Ready v flags c.shared.mem) (hncpus : c.shared.mem.ti.ncpus = 1) :
    ∃ tr t printed result, (cycle pvclock a).machine.run c tr = some t ∧
      (∀ x ∈ samples tr, x = ⟨v, flags⟩) ∧ t.shared.main = .returned printed result ∧
      Stood c.shared.mem t.shared.mem := by
  obtain ⟨⟨m, main⟩, ws⟩ := c
  dsimp only at hmain hworker hready hncpus
  subst hmain
  obtain ⟨es, m', hes, hm', hncpus', hloop⟩ :=
    standing_loop a.loops 0 check (a.loops - i) i (by omega) hready
  let m'' : Mem pvclock := { m' with ti.ncpus := m'.ti.ncpus - 1 }
  have hleave : (solo a.loops 0).run (m', ⟨check, a.loops, .loopTest⟩) (List.replicate 2 .own) =
      some (m'', ⟨check, a.loops, .done⟩) := by
    simp [List.replicate, Machine.run, solo, kvmClockTest, m'']
  have hsolo := solo_cycle (a := a) (Machine.run_trans hloop hleave) .wait ws
  have hzero : m''.ti.ncpus = 0 := by
    simp only [m'', hncpus', hncpus]
    rfl
  obtain ⟨n, printed, result, hreturn⟩ :=
    caller_returns a m'' (Function.update ws 0 ⟨check, a.loops, .done⟩) hzero
  have hstart : (⟨⟨m, .wait⟩, ws⟩ : CycleState pvclock) =
      ⟨⟨m, .wait⟩, Function.update ws 0 ⟨check, i, .loopTest⟩⟩ := by
    rw [← hworker, Function.update_eq_self]
  refine ⟨(es ++ List.replicate 2 WorkerEvent.own).map (.thread 0) ++ callerSteps n,
    ⟨⟨m'', .returned printed result⟩, Function.update ws 0 ⟨check, a.loops, .done⟩⟩,
    printed, result, ?_, ?_, rfl, ?_⟩
  · rw [hstart]
    exact Machine.run_trans hsolo hreturn
  · intro x hx
    rw [samples_append, samples_caller, List.append_nil] at hx
    exact samples_thread (hes.append (samples_own 2)) x hx
  · refine hm'.trans ⟨rfl, rfl, [], rfl, by simp⟩

/-- A call on one CPU has a run to its return in which every `delta` is zero. -/
theorem standing_call {clock : ClockStatics} {ti : TestInfo} (hncpus : a.ncpus = 1)
    (hlaunch : a.launch 0 = true) (hlock : ti.lock = none) (hclock : Standing ti.last flags clock) :
    ∃ tr t printed result,
      (cycle pvclock a).machine.run (cycleStart pvclock clock ti) tr = some t ∧
      t.shared.main = .returned printed result ∧ (∀ e ∈ t.shared.mem.log, e.delta = 0) ∧
      t.shared.mem.ti.warps = ti.warps ∧ t.shared.mem.ti.worst = ti.worst := by
  obtain ⟨ncpus, check, loops, launch⟩ := a
  dsimp only at hncpus hlaunch
  subst hncpus
  let c : CycleState pvclock :=
    ⟨⟨⟨⟨{ ti with ncpus := 1, check := check }, fun _ => false, []⟩, clock⟩, .wait⟩,
      Function.update (fun _ => Worker.idle pvclock) 0 ⟨check, 0, .loopTest⟩⟩
  let c₀ : CycleState pvclock :=
    ⟨⟨⟨⟨{ ti with ncpus := 1, check := check }, Function.update (fun _ => false) 0 true, []⟩,
      clock⟩, .wait⟩, fun _ => Worker.idle pvclock⟩
  have hcaller : (cycle pvclock ⟨1, check, loops, launch⟩).machine.run (cycleStart pvclock clock ti)
      (callerSteps 4) = some c₀ := by
    simp [callerSteps, List.replicate, Machine.run, Threads.machine, cycle, cycleTest, smpCall,
      hlaunch, cycleStart, c₀]
  have hworkerRun : (cycle pvclock ⟨1, check, loops, launch⟩).machine.run c₀ (ownSteps 0 2) =
      some c := by
    have hqueued : Function.update (Function.update (fun _ : ℕ => false) 0 true) 0 false =
        fun _ => false := by
      rw [Function.update_idem, Function.update_eq_self]
    simp [ownSteps, List.replicate, Machine.run, Threads.machine, cycle, kvmClockTest, Worker.idle,
      hqueued, c₀, c]
  have hbegin := Machine.run_trans hcaller hworkerRun
  have hworker : c.locals 0 = ⟨check, 0, .loopTest⟩ := by simp [c]
  have hready : Ready ti.last flags c.shared.mem := ⟨hclock, rfl, hlock⟩
  obtain ⟨tr, t, printed, result, hrun, -, hmain, hstood⟩ :=
    standing_finish (a := ⟨1, check, loops, launch⟩) rfl hworker (Nat.zero_le _) hready rfl
  obtain ⟨new, hlog, hzero⟩ := hstood.log
  refine ⟨_, t, printed, result, Machine.run_trans hbegin hrun, hmain, ?_, ?_, ?_⟩
  · intro e he
    rw [hlog, List.append_nil] at he
    exact hzero e he
  · rw [hstood.ti]
  · rw [hstood.ti]

/-! ## Inside the test -/

variable {p : Platform}

theorem phaseSamples_append (k : Fin 4) (tr₁ tr₂ : List TestAction) :
    phaseSamples k (tr₁ ++ tr₂) = phaseSamples k tr₁ ++ phaseSamples k tr₂ :=
  List.filterMap_append

theorem phaseSamples_inPhase (k : Fin 4) (tr : List (CycleAction pvclock)) :
    phaseSamples k (tr.map (inPhase k)) = samples tr := by
  unfold phaseSamples samples
  rw [List.filterMap_map]
  congr 1
  funext x
  cases x with
  | env e => rfl
  | thread cpu e =>
    cases e with
    | own => rfl
    | clock e => cases e <;> simp [inPhase]

/-- A phase with its only worker at a loop test has a run to its return. -/
theorem standing_phase {k : Fin 4} {s : TestState} {check : ℤ} {i : ℕ}
    (hmain : s.shared.main = .cycle k .wait) (hworker : s.locals (k, 0) = ⟨check, i, .loopTest⟩)
    (hi : i ≤ p.loops) (hready : Ready v flags ⟨s.shared.phases k, s.shared.clock⟩)
    (hncpus : (s.shared.phases k).ti.ncpus = 1) :
    ∃ tr t printed result, (test p).machine.run s tr = some t ∧
      (∀ x ∈ phaseSamples k tr, x = ⟨v, flags⟩) ∧
      t.shared.main = .cycle k (.returned printed result) ∧
      Stood ⟨s.shared.phases k, s.shared.clock⟩ ⟨t.shared.phases k, t.shared.clock⟩ := by
  obtain ⟨tr, c, printed, result, hrun, hsamples, hreturn, hstood⟩ :=
    standing_finish (a := p.cycleArgs k) (c := view k .wait s.shared.clock s) rfl hworker hi hready
      hncpus
  have hplaced := place_run hrun s
  rw [place_view hmain] at hplaced
  refine ⟨tr.map (inPhase k), place k c s, printed, result, hplaced, ?_, ?_, ?_⟩
  · rw [phaseSamples_inPhase]
    exact hsamples
  · simp only [place, hreturn]
  · simp only [place, Function.update_self]
    exact hstood

/-- Where a worker stands, if it is at its loop test. -/
def Worker.atLoopTest {K : Clock} : Worker K → Option (ℤ × ℕ)
  | ⟨check, i, .loopTest⟩ => some (check, i)
  | _ => none

theorem atLoopTest_some {K : Clock} {w : Worker K} {check : ℤ} {i : ℕ}
    (h : w.atLoopTest = some (check, i)) : w = ⟨check, i, .loopTest⟩ := by
  obtain ⟨check', i', pc⟩ := w
  cases pc <;> simp [Worker.atLoopTest] at h
  obtain ⟨rfl, rfl⟩ := h
  rfl

end PcmTest.Kvmclock
