import PcmTest.Kvmclock.CycleTest

/-!
# The work left to a worker

A bound on the steps that a worker of `kvm_clock_test` still makes, which no step of
another worker can spoil. The swap loop has no bound of its own for one call: each swap
that succeeds sends every other call once more round its loop. So a call holds one credit
for each of the `n` calls that can be in the loop at a time, and its one successful swap
pays with them.
-/

namespace PcmTest.Kvmclock

open Theory

/-- The accesses left to a call, with the credits for its swap. A call that has nothing to
publish leaves with its next swap. -/
def ReadCall.work (n : ℕ) (lastValue : U64) : ReadCall → ℕ
  | .retry => n + 4
  | .flagTest _ _ => n + 3
  | .lastLoad _ => n + 2
  | .swap ret last => if ret ≤ lastValue then 1 else if last = lastValue then n + 1 else n + 2
  | .returned _ _ _ => 0

/-- Whether an access has changed `last_value`. -/
def moved (g g' : ClockStatics) : ℕ := if g'.lastValue = g.lastValue then 0 else 1

theorem work_loopHead {n : ℕ} (ret lastValue : U64) :
    (loopHead ret lastValue).work n lastValue ≤ n + 1 := by
  unfold loopHead
  split_ifs
  · exact Nat.zero_le _
  · simp only [ReadCall.work, if_true]
    split_ifs <;> omega

theorem work_loopTest {n : ℕ} {ret last : U64} (x : U64) (h : ret ≤ last) :
    (loopTest ret last).work n x = 0 := by
  unfold loopTest loopHead
  split_ifs with hne hlt
  · rfl
  · exact absurd (BitVec.le_antisymm (BitVec.not_lt.mp hlt) h) hne
  · rfl

theorem work_loopTest_le {n : ℕ} (ret lastValue : U64) :
    (loopTest ret lastValue).work n lastValue ≤ n + 1 := by
  unfold loopTest
  split_ifs
  · exact work_loopHead ret lastValue
  · exact Nat.zero_le _

/-- The swap: one that changes `last_value` gives up the credits. A call alone pays nobody. -/
theorem work_swap {n : ℕ} {ret last lastValue : U64} (h : last ≤ ret ∨ n = 1) :
    let found := if lastValue = last then ret else lastValue
    (loopTest ret lastValue).work n found + n * (if found = lastValue then 0 else 1) <
      (ReadCall.swap ret last).work n lastValue + if found = lastValue then 0 else 1 := by
  dsimp only
  by_cases hret : ret ≤ lastValue
  · rw [work_loopTest _ hret, ReadCall.work, if_pos hret]
    rcases h with hle | rfl
    · -- nothing to publish: what the swap stores, if anything, is there already
      have hsame : (if lastValue = last then ret else lastValue) = lastValue := by
        split_ifs with hlast
        · exact BitVec.le_antisymm hret (hlast ▸ hle)
        · rfl
      rw [hsame, if_pos rfl]
      omega
    · split_ifs <;> omega
  · by_cases hlast : lastValue = last
    · have hne : ret ≠ lastValue := fun h => hret (h ▸ BitVec.le_refl _)
      have hnext : (loopTest ret lastValue).work n ret ≤ 1 := by
        unfold loopTest loopHead
        split_ifs
        · exact Nat.zero_le _
        · simp [ReadCall.work]
        · exact Nat.zero_le _
      rw [if_pos hlast, if_neg hne, ReadCall.work, if_neg hret, if_pos hlast.symm]
      omega
    · have hnext := work_loopTest_le (n := n) ret lastValue
      rw [if_neg hlast, if_pos rfl, ReadCall.work, if_neg hret, if_neg (Ne.symm hlast)]
      omega

/-- An access uses up work of its own call, beyond what it pays to the others. -/
theorem read_work {n : ℕ} {g g' : ClockStatics} {c c' : ReadCall} {e : ReadEvent}
    (hc : c.Behind g.lastValue ∨ n = 1) (h : pvclockClocksourceRead g c e = some (g', c')) :
    c'.work n g'.lastValue + n * moved g g' < c.work n g.lastValue + moved g g' := by
  rcases pvclockClocksourceRead_cases h with ⟨x, rfl, rfl, rfl, rfl⟩ |
    ⟨ret, flags, rfl, rfl, rfl, -, rfl⟩ | ⟨ret, flags, rfl, rfl, rfl, -, rfl⟩ |
    ⟨ret, rfl, rfl, rfl, rfl⟩ | ⟨ret, last, rfl, rfl, rfl, rfl⟩
  · simp [moved, ReadCall.work]
  · simp [moved, ReadCall.work]
  · simp [moved, ReadCall.work]
  · have hhead := work_loopHead (n := n) ret g'.lastValue
    simp only [moved, if_true]
    exact Nat.lt_succ_of_le hhead
  · exact work_swap (hc.imp_left fun h => h.1)

/-- A change of `last_value` costs another call at most one access. -/
theorem read_work_other (n : ℕ) {g g' : ClockStatics} (hle : g.lastValue ≤ g'.lastValue)
    (c : ReadCall) : c.work n g'.lastValue ≤ c.work n g.lastValue + moved g g' := by
  unfold moved
  split_ifs with hsame
  · rw [hsame]
    exact Nat.le_refl _
  · cases c with
    | swap ret last =>
      simp only [ReadCall.work]
      by_cases hret : ret ≤ g.lastValue
      · rw [if_pos hret, if_pos (BitVec.le_trans hret hle)]
        omega
      · rw [if_neg hret]
        split_ifs <;> omega
    | _ => exact Nat.le_add_right _ _

/-! ## Workers -/

def Pc.reading? : Pc pvclock → Option ReadCall
  | .plainRead c | .firstRead c | .secondRead _ _ _ c => some c
  | _ => none

/-- The steps of one iteration with its clock reads. -/
def iterationWork (n : ℕ) (check : ℤ) : ℕ := if check = 0 then n + 6 else 2 * n + 23

/-- From `if (!delta)` to the end of the iteration. -/
def stallWork (delta : ℤ) : ℕ := if delta = 0 then 3 else 1

/-- The steps to the end of the iteration, without those of the read under way. -/
def Pc.work (n : ℕ) : Pc pvclock → ℕ
  | .plainRead _ => 1
  | .acquire => 2 * n + 22
  | .firstRead _ => n + 17
  | .loadLast _ _ => n + 16
  | .secondRead _ _ _ _ => 11
  | .storeLast _ => 10
  | .release _ => 9
  | .warpTest delta => if delta < 0 then 8 else stallWork delta + 1
  | .acquireWarp delta => stallWork delta + 6
  | .loadWarps delta => stallWork delta + 5
  | .storeWarps delta _ => stallWork delta + 4
  | .worstTest delta => stallWork delta + 3
  | .storeWorst delta => stallWork delta + 2
  | .releaseWarp delta => stallWork delta + 1
  | .stallTest delta => stallWork delta
  | .loadStalls => 2
  | .storeStalls _ => 1
  | _ => 0

def Worker.work (a : CycleArgs) (n : ℕ) (lastValue : U64) (w : Worker pvclock) : ℕ :=
  match w.pc with
  | .idle => a.loops * iterationWork n a.check + 4
  | .loadCheck => a.loops * iterationWork n a.check + 3
  | .loopTest => (a.loops - w.i) * iterationWork n a.check + 2
  | .decNcpus => 1
  | .done => 0
  | pc => pc.reading?.elim 0 (ReadCall.work n lastValue) + pc.work n +
      ((a.loops - (w.i + 1)) * iterationWork n a.check + 2)

/-- The clock read under way is behind `last_value`. -/
def ReadingBehind (_cpu : ℕ) (g : CycleMem pvclock) (w : Worker pvclock) : Prop :=
  ∀ c, w.pc.reading? = some c → c.Behind g.mem.clock.lastValue

theorem worker_behind {loops cpu : ℕ} {m m' : Mem pvclock} {w w' : Worker pvclock}
    {e : WorkerEvent pvclock}
    (hw : ∀ c, w.pc.reading? = some c → c.Behind m.clock.lastValue)
    (h : WorkerStep loops cpu m w e m' w') :
    m.clock.lastValue ≤ m'.clock.lastValue ∧
      ∀ c, w'.pc.reading? = some c → c.Behind m'.clock.lastValue := by
  cases h
  case plainRead check i c e g c' hread =>
    obtain ⟨hle, hbehind⟩ := ReadCall.behind_step (hw c rfl) hread
    exact ⟨hle, fun _ h => Option.some.inj h ▸ hbehind⟩
  case firstRead check i c e g c' hread =>
    obtain ⟨hle, hbehind⟩ := ReadCall.behind_step (hw c rfl) hread
    exact ⟨hle, fun _ h => Option.some.inj h ▸ hbehind⟩
  case secondRead check i first t1 t0 c e g c' hread =>
    obtain ⟨hle, hbehind⟩ := ReadCall.behind_step (hw c rfl) hread
    exact ⟨hle, fun _ h => Option.some.inj h ▸ hbehind⟩
  all_goals
    refine ⟨BitVec.le_refl _, fun c hc => ?_⟩
    cases hc
    try trivial

theorem cycle_behind (a : CycleArgs) (A : ℕ → WorkerEvent pvclock → Prop) :
    (cycle pvclock a).Inductive A (fun _ => True) ReadingBehind where
  own _ _ hP h := by
    obtain ⟨m, hstep, rfl⟩ := cycle_thread h
    exact ⟨trivial, (worker_behind hP hstep).2⟩
  other _ _ _ hP hQ h := by
    obtain ⟨m, hstep, rfl⟩ := cycle_thread h
    exact fun c hc => ReadCall.behind_mono (worker_behind hP hstep).1 (hQ c hc)
  env _ h := by
    refine ⟨trivial, fun i u hP c hc => ?_⟩
    rw [(cycle_env h).2.1]
    exact hP c hc

theorem loop_work {loops i : ℕ} (hi : i < loops) (x : ℕ) :
    (loops - i) * x = (loops - (i + 1)) * x + x := by
  have hsub : loops - i = loops - (i + 1) + 1 := by omega
  rw [hsub, Nat.succ_mul]

/-- A worker's step uses up work of its own, beyond what it pays to the other workers. -/
theorem worker_work {a : CycleArgs} {n cpu : ℕ} {g : CycleMem pvclock} {m : Mem pvclock}
    {w w' : Worker pvclock} {e : WorkerEvent pvclock} (hbehind : ReadingBehind cpu g w)
    (hplaced : Placed a cpu g w) (h : WorkerStep a.loops cpu g.mem w e m w') :
    w'.work a n m.clock.lastValue + n * moved g.mem.clock m.clock <
      w.work a n g.mem.clock.lastValue + moved g.mem.clock m.clock := by
  obtain ⟨-, -, hcheck, -⟩ := hplaced
  cases h
  case plainRead check i c e clock c' hread =>
    have hread := read_work (n := n) (.inl (hbehind c rfl)) hread
    simp only [Worker.work, Pc.reading?, Option.elim_some, Pc.work]
    omega
  case firstRead check i c e clock c' hread =>
    have hread := read_work (n := n) (.inl (hbehind c rfl)) hread
    simp only [Worker.work, Pc.reading?, Option.elim_some, Pc.work]
    omega
  case secondRead check i first t1 t0 c e clock c' hread =>
    have hread := read_work (n := n) (.inl (hbehind c rfl)) hread
    simp only [Worker.work, Pc.reading?, Option.elim_some, Pc.work]
    omega
  case plainIter i hi =>
    have hplain : iterationWork n a.check = n + 6 := if_pos (hcheck (by simp) (by simp)).symm
    simp only [moved, if_true, Worker.work, Pc.reading?, Option.elim_some, ReadCall.work, Pc.work,
      loop_work hi, hplain]
    omega
  case checkIter check i hi hne =>
    have hiter : iterationWork n a.check = 2 * n + 23 :=
      if_neg (hcheck (by simp) (by simp) ▸ hne)
    simp only [moved, if_true, Worker.work, Pc.reading?, Option.elim_none, Pc.work, loop_work hi,
      hiter]
    omega
  case release check i e =>
    simp only [moved, if_true, Worker.work, Pc.reading?, Option.elim_none, Pc.work, stallWork]
    split_ifs <;> omega
  case warpFound check i delta hneg =>
    have hstall : stallWork delta = 1 := if_neg hneg.ne
    simp only [moved, if_true, Worker.work, Pc.reading?, Option.elim_none, Pc.work, if_pos hneg,
      hstall]
    omega
  case warpAbsent check i delta hneg =>
    simp only [moved, if_true, Worker.work, Pc.reading?, Option.elim_none, Pc.work, if_neg hneg]
    omega
  case stallFound check i =>
    simp only [moved, if_true, Worker.work, Pc.reading?, Option.elim_none, Pc.work, stallWork]
    omega
  case stallAbsent check i delta hd =>
    simp only [moved, if_true, Worker.work, Pc.reading?, Option.elim_none, Pc.work, stallWork,
      if_neg hd]
    omega
  all_goals
    simp only [moved, if_true, Worker.work, Pc.reading?, Option.elim_some, Option.elim_none,
      ReadCall.work, Pc.work, Nat.sub_zero]
    omega

/-- A change of `last_value` costs another worker at most one step. -/
theorem worker_work_other (a : CycleArgs) (n : ℕ) {g g' : ClockStatics}
    (hle : g.lastValue ≤ g'.lastValue) (u : Worker pvclock) :
    u.work a n g'.lastValue ≤ u.work a n g.lastValue + moved g g' := by
  obtain ⟨check, i, pc⟩ := u
  have hread := read_work_other n hle
  cases pc
  case plainRead c =>
    simp only [Worker.work, Pc.reading?, Option.elim_some]
    have := hread c
    omega
  case firstRead c =>
    simp only [Worker.work, Pc.reading?, Option.elim_some]
    have := hread c
    omega
  case secondRead first t1 t0 c =>
    simp only [Worker.work, Pc.reading?, Option.elim_some]
    have := hread c
    omega
  all_goals exact Nat.le_add_right _ _

/-- A worker that reads no clock does not see `last_value`. -/
theorem work_quiet {w : Worker pvclock} (a : CycleArgs) (n : ℕ) (x y : U64)
    (hw : w.pc.reading? = none) : w.work a n x = w.work a n y := by
  obtain ⟨check, i, pc⟩ := w
  cases pc <;> first | rfl | cases hw

/-! ## Deadlock -/

theorem read_enabled (g : ClockStatics) (c : ReadCall) :
    (∃ v, c.value? = some v) ∨ ∃ e r, pvclockClocksourceRead g c e = some r := by
  cases c with
  | retry => exact .inr ⟨.sample ⟨0, 0⟩, _, rfl⟩
  | flagTest ret flags => exact .inr ⟨.proceed, _, rfl⟩
  | lastLoad ret => exact .inr ⟨.proceed, _, rfl⟩
  | swap ret last => exact .inr ⟨.proceed, _, rfl⟩
  | returned path ret value => exact .inl ⟨value, rfl⟩

theorem reading_enabled {loops cpu : ℕ} {m : Mem pvclock} {w : Worker pvclock} {c : ReadCall}
    (hc : w.pc.reading? = some c) : ∃ e, (kvmClockTest loops cpu m w e).isSome = true := by
  obtain ⟨check, i, pc⟩ := w
  cases pc <;> cases hc
  all_goals
    rcases read_enabled m.clock c with ⟨v, hv⟩ | ⟨e, r, hr⟩
    · exact ⟨.own, by simp only [kvmClockTest, hv, Option.map_some, Option.isSome_some]⟩
    · refine ⟨.clock e, ?_⟩
      simp only [kvmClockTest, Worker.clockStep, hr, Option.map_some, Option.isSome_some]

/-- A worker can be held up only before it starts, at the lock, and when it is done. -/
theorem worker_enabled (loops cpu : ℕ) (m : Mem pvclock) (w : Worker pvclock)
    (hdone : w.pc ≠ .done) (hidle : w.pc = .idle → m.queued cpu = true)
    (hlock : w.pc.holdsLock = true ∨ m.ti.lock = none) :
    ∃ e, (kvmClockTest loops cpu m w e).isSome = true := by
  cases hreading : w.pc.reading? with
  | some c => exact reading_enabled hreading
  | none =>
    obtain ⟨check, i, pc⟩ := w
    refine ⟨.own, ?_⟩
    cases pc
    case idle => simp only [kvmClockTest, hidle rfl, if_true, Option.isSome_some]
    case plainRead c => cases hreading
    case firstRead c => cases hreading
    case secondRead first t1 t0 c => cases hreading
    case acquire =>
      have hfree := hlock.resolve_left (by simp [Pc.holdsLock])
      simp only [kvmClockTest, hfree, if_true, Option.isSome_some]
    case acquireWarp delta =>
      have hfree := hlock.resolve_left (by simp [Pc.holdsLock])
      simp only [kvmClockTest, hfree, if_true, Option.isSome_some]
    case done => exact absurd rfl hdone
    all_goals rfl

/-- While a launched worker has not finished, some worker can step. -/
theorem cycle_enabled {a : CycleArgs} {s : CycleState pvclock}
    (hplaced : Threads.Holds (Launched a) (Placed a) s)
    (hlocked : ∀ cpu, LockedBy cpu s.shared (s.locals cpu)) {cpu : ℕ}
    (hpassed : s.shared.main.passed a.ncpus cpu) (hlaunch : a.launch cpu = true)
    (hdone : (s.locals cpu).pc ≠ .done) :
    ∃ i e, (kvmClockTest a.loops i s.shared.mem (s.locals i) e).isSome = true := by
  cases hlock : s.shared.mem.ti.lock with
  | none =>
    refine ⟨cpu, worker_enabled _ _ _ _ hdone (fun hidle => ?_) (.inr hlock)⟩
    exact ((hplaced.2 cpu).2.1 hpassed hlaunch).resolve_right (not_not.mpr hidle)
  | some i =>
    -- whoever holds the lock is inside of a critical section, where nothing blocks
    have hholds : (s.locals i).pc.holdsLock = true := (hlocked i).mpr hlock
    refine ⟨i, worker_enabled _ _ _ _ ?_ ?_ (.inl hholds)⟩
    · intro h
      rw [h] at hholds
      cases hholds
    · intro h
      rw [h] at hholds
      cases hholds

end PcmTest.Kvmclock
