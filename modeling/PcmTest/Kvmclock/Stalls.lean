import PcmTest.Kvmclock.Warps
import PcmTest.Theory.LostUpdate

/-!
# Stalls are counted without the lock

`++stalls` stands after the critical section: a load and a store that other workers can
get between. Seen from `stalls` a `cycle_test` call is the counter of `LostUpdate`.
-/

namespace PcmTest.Kvmclock

open Theory

variable {K : Clock} {a : CycleArgs}

def Section.isStall (e : Section K) : Bool := e.delta = 0

def stallCount (log : List (Section K)) : ℕ := log.countP Section.isStall

/-- The value of `stalls` that the worker has loaded and not yet stored back. -/
def Pc.heldStalls? : Pc K → Option U64
  | .storeStalls stalls => some stalls
  | _ => none

/-- A zero `delta` found but not yet stored. -/
def Pc.unstored : Pc K → Bool
  | .warpTest delta | .stallTest delta => delta = 0
  | .loadStalls | .storeStalls _ => true
  | _ => false

/-- What a step shows of the accesses to `stalls`. -/
def stallAccess (s : CycleState K) : CycleAction K → List (LostUpdate.Action ℕ)
  | .thread cpu .own =>
    match (s.locals cpu).pc with
    | .loadStalls => [.load cpu]
    | .storeStalls _ => [.store cpu]
    | _ => []
  | _ => []

/-- A store to `stalls` finds no other worker between its load and its store. -/
def StallsAlone (s : CycleState K) : CycleAction K → Prop
  | .thread cpu .own => (s.locals cpu).pc.heldStalls? ≠ none →
      ∀ other, other ≠ cpu → (s.locals other).pc.heldStalls? = none
  | _ => True

/-- Workers with a zero `delta` that is not stored yet. -/
def unstored (n : ℕ) (ws : ℕ → Worker K) : ℤ :=
  Threads.total (Finset.range n) (fun w => if w.pc.unstored then (1 : ℤ) else 0) ws

/-- The counter seen in a state: stores made and stores due are the zero entries of the log. -/
structure Stalled (a : CycleArgs) (s : CycleState K) (c : LostUpdate.State ℕ 64) : Prop where
  holds : Threads.Holds (fun g => (True ∧ Launched a g) ∧ True)
    (fun cpu g w => (LockedBy cpu g w ∧ Placed a cpu g w) ∧ WarpHeld cpu g w) s
  value : c.value = s.shared.mem.ti.stalls
  held : c.held = fun cpu => (s.locals cpu).pc.heldStalls?
  stores : (c.stores : ℤ) - stallCount s.shared.mem.log + unstored a.ncpus s.locals = 0

/-- What one step of a worker means for `stalls`. -/
inductive StallStep (g : CycleMem K) (w : Worker K) (e : WorkerEvent K) (m : Mem K)
    (w' : Worker K) : Prop
  | load : e = .own → w.pc = .loadStalls → m = g.mem → w'.pc = .storeStalls m.ti.stalls →
      StallStep g w e m w'
  | store (v : U64) : e = .own → w.pc = .storeStalls v → m.ti.stalls = v + 1 →
      m.log = g.mem.log → w'.pc = .loopTest → StallStep g w e m w'
  | other : w.pc ≠ .loadStalls → w.pc.heldStalls? = none → w'.pc.heldStalls? = none →
      m.ti.stalls = g.mem.ti.stalls →
      - (stallCount m.log : ℤ) + (if w'.pc.unstored then 1 else 0) =
        - (stallCount g.mem.log : ℤ) + (if w.pc.unstored then 1 else 0) → StallStep g w e m w'

theorem stallStep {cpu : ℕ} {g : CycleMem K} {m : Mem K} {w w' : Worker K} {e : WorkerEvent K}
    (hheld : WarpHeld cpu g w) (h : WorkerStep a.loops cpu g.mem w e m w') :
    StallStep g w e m w' := by
  cases h
  case loadStalls check i => exact .load rfl rfl rfl rfl
  case storeStalls check i v => exact .store v rfl rfl rfl rfl rfl
  case release check i e =>
    refine .other (by simp) rfl rfl rfl ?_
    have hlog : stallCount (e :: g.mem.log) =
        stallCount g.mem.log + if e.delta = 0 then 1 else 0 := by
      simp [stallCount, Section.isStall, List.countP_cons]
    by_cases he : e.delta = 0
    · simp [hlog, he, Pc.unstored]
    · simp [hlog, he, Pc.unstored]
  case warpFound check i delta hd =>
    exact .other (by simp) rfl rfl rfl (by simp [Pc.unstored, hd.ne])
  case releaseWarp check i delta =>
    have hneg : delta < 0 := hheld
    exact .other (by simp) rfl rfl rfl (by simp [Pc.unstored, hneg.ne])
  case stallAbsent check i delta hd =>
    exact .other (by simp) rfl rfl rfl (by simp [Pc.unstored, hd])
  all_goals exact .other (by simp) rfl rfl rfl rfl

theorem held_update (ws : ℕ → Worker K) (cpu : ℕ) (w : Worker K) :
    (fun other => (Function.update ws cpu w other).pc.heldStalls?) =
      Function.update (fun other => (ws other).pc.heldStalls?) cpu w.pc.heldStalls? :=
  Function.comp_update (fun u : Worker K => u.pc.heldStalls?) ws cpu w

theorem stallAccess_nil {s : CycleState K} {cpu : ℕ} {e : WorkerEvent K}
    (hload : (s.locals cpu).pc ≠ .loadStalls) (hheld : (s.locals cpu).pc.heldStalls? = none) :
    stallAccess s (.thread cpu e) = [] := by
  cases e with
  | clock e => rfl
  | own =>
    unfold stallAccess
    cases hpc : (s.locals cpu).pc <;> simp_all [Pc.heldStalls?]

/-- A `cycle_test` call, seen from `stalls`, is the counter without a lock. -/
theorem stall_simulation (K : Clock) (a : CycleArgs) (A : ℕ → WorkerEvent K → Prop) :
    Simulation (cycle K a).machine (LostUpdate.counter ℕ 64) (Stalled a) (Threads.Allowed A)
      stallAccess where
  step s x s' c hx hs hstep := by
    have hholds := (cycle_warpHeld K a A).step hx hs.holds hstep
    cases x with
    | thread cpu e =>
      obtain ⟨g, w, hw, rfl⟩ := Threads.thread_step hstep
      obtain ⟨m, hwork, rfl⟩ := cycle_thread hw
      have hcpu := worker_mem_range hs.holds.1.1.2 (hs.holds.2 cpu).1.2 hwork
      have hheld := congrFun hs.held cpu
      cases stallStep (hs.holds.2 cpu).2 hwork with
      | load he hpc hm hpc' =>
        subst he hm
        refine ⟨{ c with held := Function.update c.held cpu (some c.value) }, ?_, hholds,
          hs.value, ?_, ?_⟩
        · have hnone : c.held cpu = none := by rw [hheld, hpc]; rfl
          simp [stallAccess, hpc, Machine.run, LostUpdate.counter, hnone]
        · rw [held_update, hpc', hs.held, hs.value]
          rfl
        · rw [← hs.stores]
          apply Threads.exchange hcpu
          simp [hpc, hpc', Pc.unstored]
      | store v he hpc hstalls hlog hpc' =>
        subst he
        refine ⟨⟨v + 1, c.stores + 1, Function.update c.held cpu none⟩, ?_, hholds,
          hstalls.symm, ?_, ?_⟩
        · have hsome : c.held cpu = some v := by rw [hheld, hpc]; rfl
          simp [stallAccess, hpc, Machine.run, LostUpdate.counter, hsome]
        · rw [held_update, hpc', hs.held]
          rfl
        · rw [← hs.stores]
          apply Threads.exchange hcpu
          rw [hlog, hpc, hpc']
          simp [Pc.unstored]
          ring
      | other hload hnone hnone' hstalls hbalance =>
        refine ⟨c, ?_, hholds, hs.value.trans hstalls.symm, ?_, ?_⟩
        · rw [stallAccess_nil hload hnone]
          rfl
        · rw [held_update, hnone', ← hnone, Function.update_eq_self, hs.held]
        · rw [← hs.stores]
          apply Threads.exchange hcpu
          dsimp only
          rw [sub_eq_add_neg, add_assoc, hbalance, ← add_assoc, ← sub_eq_add_neg]
    | env e =>
      obtain ⟨g, hg, rfl⟩ := Threads.env_step hstep
      obtain ⟨hlog, -, hti⟩ := cycle_env hg
      refine ⟨c, rfl, hholds, ?_, hs.held, ?_⟩
      · rw [hs.value]
        exact (congrArg TestInfo.stalls hti).symm
      · rw [← hs.stores]
        dsimp only
        rw [hlog]

/-- The condition on the workers is the condition on the counter. -/
theorem stallsAlone_iff {s : CycleState K} {x : CycleAction K} {c : LostUpdate.State ℕ 64}
    (hs : Stalled a s c) :
    StallsAlone s x ↔ (LostUpdate.counter ℕ 64).Along LostUpdate.Alone c (stallAccess s x) := by
  have hheld := congrFun hs.held
  cases x with
  | env e => exact Iff.rfl
  | thread cpu e =>
    cases e with
    | clock e => exact Iff.rfl
    | own =>
      cases hpc : (s.locals cpu).pc
      case storeStalls v =>
        simp [StallsAlone, stallAccess, Machine.Along, LostUpdate.Alone, hpc, hheld, Pc.heldStalls?]
      all_goals
        simp [StallsAlone, stallAccess, Machine.Along, LostUpdate.Alone, hpc, Pc.heldStalls?]

theorem cycleStart_stalled (a : CycleArgs) (clock : K.Shared) {ti : TestInfo}
    (hlock : ti.lock = none) :
    Stalled a (cycleStart K clock ti) (LostUpdate.start ti.stalls) := by
  refine ⟨cycleStart_warpHeld a clock hlock, rfl, rfl, ?_⟩
  have hnone : unstored a.ncpus (cycleStart K clock ti).locals = 0 := by
    apply Threads.total_eq_zero
    intro cpu _
    rfl
  rw [hnone]
  rfl

theorem quiet_unstored {s : CycleState K} (hquiet : Quiet s) : unstored a.ncpus s.locals = 0 := by
  apply Threads.total_eq_zero
  intro cpu _
  rcases hquiet cpu with hpc | hpc <;> simp [hpc, Pc.unstored]

/-- When the launched workers have finished, `stalls` has grown by the number of zero
entries if every store to it found no other worker between load and store, and, unless
the number of iterations overflows the counter, only then. -/
theorem stalls_exact_iff_alone (K : Clock) (a : CycleArgs) (clock : K.Shared) (ti : TestInfo)
    (hlock : ti.lock = none) (hcheck : a.check = 1) (tr : List (CycleAction K)) (s : CycleState K)
    (hrun : (cycle K a).machine.run (cycleStart K clock ti) tr = some s)
    (hdone : ∀ cpu < a.ncpus, a.launch cpu = true → (s.locals cpu).pc = .done) :
    (∀ cpu i, entries s.shared.mem.log cpu i =
      if (cpu < a.ncpus ∧ a.launch cpu = true) ∧ i < a.loops then 1 else 0) ∧
    ((cycle K a).machine.Along StallsAlone (cycleStart K clock ti) tr →
      s.shared.mem.ti.stalls = ti.stalls + (stallCount s.shared.mem.log : U64)) ∧
    (a.ncpus * a.loops < 2 ^ 64 →
      s.shared.mem.ti.stalls = ti.stalls + (stallCount s.shared.mem.log : U64) →
      (cycle K a).machine.Along StallsAlone (cycleStart K clock ti) tr) := by
  have htr := Threads.allowed_true tr
  have hquiet := quiet_of_finished (cycle_reachable_placed htr hrun) hdone
  have hstart := cycleStart_stalled a clock hlock
  have S := stall_simulation K a fun _ _ => True
  obtain ⟨c, hc, hs⟩ := S.run htr hstart hrun
  have halong := S.along (fun _ _ _ _ _ hu _ => stallsAlone_iff hu) htr hstart hrun
  have hstores : c.stores = stallCount s.shared.mem.log := by
    have hsum := hs.stores
    rw [quiet_unstored hquiet] at hsum
    omega
  rw [halong, ← hs.value, ← hstores]
  refine ⟨quiet_entries htr hlock hrun (by simp [hcheck]) hdone, fun h => ?_, fun hbound h => ?_⟩
  · exact LostUpdate.exact_of_alone hc h
  · refine LostUpdate.alone_of_exact hc (fun cpu => ?_) ?_ h
    · rw [hs.held]
      rcases hquiet cpu with hpc | hpc <;> simp [hpc, Pc.heldStalls?]
    · have hle : stallCount s.shared.mem.log ≤ a.ncpus * a.loops :=
        List.countP_le_length.trans (reached_log_length htr hlock hrun)
      omega

/-- Two workers on a clock that stands at 5. The first iterations are apart, with one zero
`delta`; `overlap` orders the two increments of the second iterations. -/
def standingClock (overlap : List (CycleAction pvclock)) : List (CycleAction pvclock) :=
  callerSteps 5 ++ ownSteps 0 2 ++ fastSection 0 5 5 ++ ownSteps 0 1 ++
    ownSteps 1 2 ++ fastSection 1 5 5 ++ ownSteps 1 3 ++
    fastSection 0 5 5 ++ fastSection 1 5 5 ++ overlap ++ ownSteps 0 2 ++ ownSteps 1 2 ++
    callerSteps 5

/-- One increment after the other. -/
theorem stalls_exact_iff_alone_apart : ∃ (tr : List (CycleAction pvclock)) (s : CycleState pvclock),
    (cycle pvclock ⟨2, 1, 2, fun _ => true⟩).machine.run
      (cycleStart pvclock ⟨1, 0⟩ TestInfo.zero) tr = some s ∧ s.shared.mem.ti.stalls = 3 ∧
    (cycle pvclock ⟨2, 1, 2, fun _ => true⟩).machine.Along StallsAlone
      (cycleStart pvclock ⟨1, 0⟩ TestInfo.zero) tr := by
  obtain ⟨s, hs, hread⟩ := Option.map_eq_some_iff.mp
    (show ((cycle pvclock ⟨2, 1, 2, fun _ => true⟩).machine.run
      (cycleStart pvclock ⟨1, 0⟩ TestInfo.zero)
      (standingClock (ownSteps 0 3 ++ ownSteps 1 3))).map
        (fun s => (s.shared.main, stallCount s.shared.mem.log, s.shared.mem.ti.stalls)) =
        some (.returned (some ⟨0, 3, 0⟩) 0, 3, 3) by decide)
  simp only [Prod.mk.injEq] at hread
  obtain ⟨hmain, hcount, hstalls⟩ := hread
  have hdone := (cycle_joins (Threads.allowed_true _) hs).joined (by rw [hmain]; rfl)
  have hexact := stalls_exact_iff_alone pvclock _ _ TestInfo.zero rfl rfl _ s hs
    (fun cpu hcpu _ => hdone cpu hcpu)
  exact ⟨_, s, hs, hstalls, hexact.2.2 (by decide) (by rw [hcount, hstalls]; rfl)⟩

/-- Both load, then both store: three zero deltas and two stalls. -/
theorem stalls_lost : ∃ (tr : List (CycleAction pvclock)) (s : CycleState pvclock),
    (cycle pvclock ⟨2, 1, 2, fun _ => true⟩).machine.run
      (cycleStart pvclock ⟨1, 0⟩ TestInfo.zero) tr = some s ∧
    (∀ cpu < 2, (s.locals cpu).pc = .done) ∧ stallCount s.shared.mem.log = 3 ∧
    s.shared.mem.ti.stalls = 2 ∧
    s.shared.mem.ti.stalls ≠ TestInfo.zero.stalls + (stallCount s.shared.mem.log : U64) := by
  obtain ⟨s, hs, hread⟩ := Option.map_eq_some_iff.mp
    (show ((cycle pvclock ⟨2, 1, 2, fun _ => true⟩).machine.run
      (cycleStart pvclock ⟨1, 0⟩ TestInfo.zero)
      (standingClock (ownSteps 0 2 ++ ownSteps 1 2 ++ ownSteps 0 1 ++ ownSteps 1 1))).map
        (fun s => (s.shared.main, stallCount s.shared.mem.log, s.shared.mem.ti.stalls)) =
        some (.returned (some ⟨0, 2, 0⟩) 0, 3, 2) by decide)
  simp only [Prod.mk.injEq] at hread
  obtain ⟨hmain, hcount, hstalls⟩ := hread
  have hdone := (cycle_joins (Threads.allowed_true _) hs).joined (by rw [hmain]; rfl)
  exact ⟨_, s, hs, hdone, hcount, hstalls, by rw [hstalls, hcount]; decide⟩

end PcmTest.Kvmclock
