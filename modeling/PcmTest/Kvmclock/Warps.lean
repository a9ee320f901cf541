import Mathlib.Data.BitVec
import Mathlib.Order.Bounds.Basic
import Mathlib.Tactic.Ring
import PcmTest.Kvmclock.CycleTest

/-!
# Warps are counted under the lock

A warp is found after the first critical section and recorded in a second one, so
several workers can be on their way from the one to the other. The history of left
critical sections has one entry for each worker and iteration; a negative entry is
counted in `warps` or still carried by the worker that found it.
-/

namespace PcmTest.Kvmclock

open Theory

variable {K : Clock} {a : CycleArgs}

def Section.isWarp (e : Section K) : Bool := e.delta < 0

def warpCount (log : List (Section K)) : ℕ := log.countP Section.isWarp

def warpDeltas (log : List (Section K)) : Set ℤ := {d | d < 0 ∧ ∃ e ∈ log, e.delta = d}

/-- A negative `delta` found but not yet counted. -/
def Pc.uncounted : Pc K → Bool
  | .warpTest delta => delta < 0
  | .acquireWarp _ | .loadWarps _ | .storeWarps _ _ => true
  | _ => false

/-- A negative `delta` found but not yet compared with `worst`. -/
def Pc.unmeasured? : Pc K → Option ℤ
  | .warpTest delta => if delta < 0 then some delta else none
  | .acquireWarp delta | .loadWarps delta | .storeWarps delta _ | .worstTest delta
  | .storeWorst delta => some delta
  | _ => none

/-- The iterations whose first critical section the worker has left. -/
def Worker.logged (w : Worker K) : ℕ :=
  match w.pc with
  | .idle | .loadCheck => 0
  | .warpTest _ | .acquireWarp _ | .loadWarps _ | .storeWarps _ _ | .worstTest _ | .storeWorst _
  | .releaseWarp _ | .stallTest _ | .loadStalls | .storeStalls _ => w.i + 1
  | _ => if w.check = 0 then 0 else w.i

/-- The entries of one worker and iteration. -/
def entries (log : List (Section K)) (cpu i : ℕ) : ℕ :=
  log.countP fun e => e.cpu = cpu ∧ e.iter = i

/-- What the recording section has read is still in memory, since it holds the lock. -/
def WarpHeld (_cpu : ℕ) (g : CycleMem K) (w : Worker K) : Prop :=
  match w.pc with
  | .acquireWarp delta | .loadWarps delta | .worstTest delta | .releaseWarp delta => delta < 0
  | .storeWarps delta warps => delta < 0 ∧ warps = g.mem.ti.warps
  | .storeWorst delta => delta < 0 ∧ delta < g.mem.ti.worst
  | .storeLast e | .release e => e.cpu = _cpu ∧ e.iter = w.i
  | _ => True

/-- `worst` is the initial value or a logged negative delta, and not above the former. -/
def WorstFrom (worst : ℤ) (g : CycleMem K) : Prop :=
  g.mem.ti.worst ≤ worst ∧ (g.mem.ti.worst = worst ∨ g.mem.ti.worst ∈ warpDeltas g.mem.log)

/-- The worker's own entries: one for each iteration left, and each negative one is
accounted for in `worst` unless the worker still carries it. -/
def EntriesOf (cpu : ℕ) (g : CycleMem K) (w : Worker K) : Prop :=
  (∀ i, entries g.mem.log cpu i = if i < w.logged then 1 else 0) ∧
  (∀ e ∈ g.mem.log, e.cpu = cpu → e.delta < 0 →
    g.mem.ti.worst ≤ e.delta ∨ w.pc.unmeasured? = some e.delta) ∧
  (∀ d, w.pc.unmeasured? = some d → d ∈ warpDeltas g.mem.log)

/-- Lock and launches, the base of the outlines below. -/
theorem cycle_base (K : Clock) (a : CycleArgs) (A : ℕ → WorkerEvent K → Prop) :
    (cycle K a).Inductive A (fun g => True ∧ Launched a g)
      (fun cpu g w => LockedBy cpu g w ∧ Placed a cpu g w) :=
  (cycle_locked K a A).conj (cycle_placed K a A)

theorem cycle_warpHeld (K : Clock) (a : CycleArgs) (A : ℕ → WorkerEvent K → Prop) :
    (cycle K a).Inductive A (fun g => (True ∧ Launched a g) ∧ True)
      (fun cpu g w => (LockedBy cpu g w ∧ Placed a cpu g w) ∧ WarpHeld cpu g w) := by
  refine (cycle_base K a A).and ?_ ?_ ?_
  · intro cpu e g w g' w' _ _ hP _ hQ h
    obtain ⟨m, hstep, rfl⟩ := cycle_thread h
    refine ⟨trivial, ?_⟩
    cases hstep <;> simp_all [WarpHeld]
  · intro i j e g w g' w' u _ hij _ hP hPu _ hQ hQu h
    obtain ⟨m, hstep, rfl⟩ := cycle_thread h
    unfold WarpHeld at hQu ⊢
    cases hstep
    case storeWarps check n delta warps =>
      have hfree := lockedBy_other hij hP.1 hPu.1 rfl
      cases hu : u.pc <;> simp_all [Pc.holdsLock]
    case storeWorst check n delta =>
      have hfree := lockedBy_other hij hP.1 hPu.1 rfl
      cases hu : u.pc <;> simp_all [Pc.holdsLock]
    all_goals exact hQu
  · intro e g g' _ _ h
    refine ⟨trivial, fun i u _ hQ => ?_⟩
    unfold WarpHeld at hQ ⊢
    rw [(cycle_env h).2.2]
    exact hQ

theorem entries_cons (e : Section K) (log : List (Section K)) (cpu i : ℕ) :
    entries (e :: log) cpu i = entries log cpu i + if e.cpu = cpu ∧ e.iter = i then 1 else 0 := by
  simp [entries, List.countP_cons]

theorem warpDeltas_cons {e : Section K} {log : List (Section K)} {d : ℤ}
    (h : d ∈ warpDeltas log) : d ∈ warpDeltas (e :: log) := by
  obtain ⟨hd, e', he', rfl⟩ := h
  exact ⟨hd, e', List.mem_cons_of_mem _ he', rfl⟩

/-- A worker's own step keeps the account of its entries, and `worst` within it. -/
theorem entriesOf_own {worst : ℤ} {loops cpu : ℕ} {e : WorkerEvent K} {g : CycleMem K}
    {w w' : Worker K} {m : Mem K} (hloop : w.InLoop loops) (hheld : WarpHeld cpu g w)
    (hg : WorstFrom worst g) (hw : EntriesOf cpu g w)
    (hstep : WorkerStep loops cpu g.mem w e m w') :
    WorstFrom worst { g with mem := m } ∧ EntriesOf cpu { g with mem := m } w' := by
  obtain ⟨hone, hworst, hpend⟩ := hw
  cases hstep
  case release check i e =>
    refine ⟨⟨hg.1, hg.2.imp_right warpDeltas_cons⟩, fun n => ?_, fun e' he' hcpu hneg => ?_, ?_⟩
    · have hn := hone n
      have hcheck : check ≠ 0 := hloop.2
      simp only [Worker.logged, hcheck, if_false] at hn ⊢
      rw [entries_cons, hn, hheld.1, hheld.2]
      rcases lt_trichotomy n i with hlt | rfl | hlt
      · simp [hlt, hlt.ne', Nat.lt_succ_of_lt hlt]
      · simp
      · simp [hlt.ne, Nat.not_lt.mpr hlt.le, Nat.not_lt.mpr hlt]
    · rcases List.mem_cons.mp he' with rfl | he'
      · exact .inr (if_pos hneg)
      · exact .inl ((hworst e' he' hcpu hneg).resolve_right (by simp [Pc.unmeasured?]))
    · simp only [Pc.unmeasured?, Option.ite_none_right_eq_some, Option.some.injEq]
      rintro d ⟨hneg, rfl⟩
      exact ⟨hneg, e, List.mem_cons_self .., rfl⟩
  case warpAbsent check i delta hd =>
    refine ⟨hg, hone, fun e he hcpu hneg => .inl ?_, by simp [Pc.unmeasured?]⟩
    exact (hworst e he hcpu hneg).resolve_right (by simp [Pc.unmeasured?, hd])
  case worstKept check i delta hd =>
    refine ⟨hg, hone, fun e he hcpu hneg => .inl ?_, by simp [Pc.unmeasured?]⟩
    rcases hworst e he hcpu hneg with hle | hle
    · exact hle
    · exact Option.some.inj hle ▸ not_lt.mp hd
  case storeWorst check i delta =>
    have hlt : delta < g.mem.ti.worst := hheld.2
    refine ⟨⟨hlt.le.trans hg.1, .inr (hpend delta rfl)⟩, hone,
      fun e he hcpu hneg => .inl ?_, by simp [Pc.unmeasured?]⟩
    rcases hworst e he hcpu hneg with hle | hle
    · exact hlt.le.trans hle
    · exact (Option.some.inj hle).le
  -- an iteration ends, or the worker starts to carry its warp
  case loadCheck | plainDone | warpFound | stallAbsent | storeStalls =>
    refine ⟨hg, ?_⟩
    simp_all [EntriesOf, Worker.logged, Worker.InLoop, WarpHeld, Pc.unmeasured?]
  -- the other steps leave log, `worst` and what the worker carries as they are
  all_goals exact ⟨hg, hone, hworst, hpend⟩

/-- Another worker logs its own entries and can only lower `worst`. -/
theorem entriesOf_other {loops i j : ℕ} {e : WorkerEvent K} {g : CycleMem K} {w w' u : Worker K}
    {m : Mem K} (hij : i ≠ j) (hheld : WarpHeld i g w) (hu : EntriesOf j g u)
    (hstep : WorkerStep loops i g.mem w e m w') : EntriesOf j { g with mem := m } u := by
  obtain ⟨hone, hworst, hpend⟩ := hu
  cases hstep
  case release check n e =>
    refine ⟨fun k => ?_, fun e' he' hcpu hneg => ?_, fun d hd => warpDeltas_cons (hpend d hd)⟩
    · rw [entries_cons, hheld.1, if_neg (by simp [hij]), hone k, Nat.add_zero]
    · rcases List.mem_cons.mp he' with rfl | he'
      · exact absurd (hheld.1.symm.trans hcpu) hij
      · exact hworst e' he' hcpu hneg
  case storeWorst check n delta =>
    exact ⟨hone, fun e he hcpu hneg =>
      (hworst e he hcpu hneg).imp_left fun hle => hheld.2.le.trans hle, hpend⟩
  all_goals exact ⟨hone, hworst, hpend⟩

theorem cycle_entries (K : Clock) (a : CycleArgs) (A : ℕ → WorkerEvent K → Prop) (worst : ℤ) :
    (cycle K a).Inductive A (fun g => ((True ∧ Launched a g) ∧ True) ∧ WorstFrom worst g)
      (fun cpu g w => ((LockedBy cpu g w ∧ Placed a cpu g w) ∧ WarpHeld cpu g w) ∧
        EntriesOf cpu g w) := by
  refine (cycle_warpHeld K a A).and ?_ ?_ ?_
  · intro cpu e g w g' w' _ _ hP hJ hQ h
    obtain ⟨m, hstep, rfl⟩ := cycle_thread h
    exact entriesOf_own hP.1.2.2.2.2 hP.2 hJ hQ hstep
  · intro i j e g w g' w' u _ hij _ hP _ _ _ hQu h
    obtain ⟨m, hstep, rfl⟩ := cycle_thread h
    exact entriesOf_other hij hP.2 hQu hstep
  · intro e g g' _ hJ h
    obtain ⟨hlog, -, hti⟩ := cycle_env h
    refine ⟨?_, fun i u _ hQ => ?_⟩
    · unfold WorstFrom at hJ ⊢
      rw [hlog, hti]
      exact hJ
    · unfold EntriesOf at hQ ⊢
      rw [hlog, hti]
      exact hQ

/-- The recording section exchanges a pending warp for a counted one. -/
theorem worker_warps {loops cpu : ℕ} {g : CycleMem K} {m : Mem K} {w w' : Worker K}
    {e : WorkerEvent K} (hheld : WarpHeld cpu g w) (h : WorkerStep loops cpu g.mem w e m w') :
    m.ti.warps - (warpCount m.log : U64) + (if w'.pc.uncounted then 1 else 0) =
      g.mem.ti.warps - (warpCount g.mem.log : U64) + (if w.pc.uncounted then 1 else 0) := by
  cases h
  case release check i e =>
    have hlog : warpCount (e :: g.mem.log) =
        warpCount g.mem.log + if e.delta < 0 then 1 else 0 := by
      simp [warpCount, Section.isWarp, List.countP_cons]
    by_cases he : e.delta < 0
    · simp only [hlog, Pc.uncounted, he, decide_true, if_true, Bool.false_eq_true, if_false,
        Nat.cast_add, Nat.cast_one]
      ring
    · simp only [hlog, Pc.uncounted, he, decide_false, if_false, Bool.false_eq_true, Nat.add_zero]
  case storeWarps check i delta warps =>
    obtain ⟨-, rfl⟩ := hheld
    simp only [Pc.uncounted, if_true, Bool.false_eq_true, if_false]
    ring
  case warpFound check i delta hd => simp [Pc.uncounted, hd]
  case warpAbsent check i delta hd => simp [Pc.uncounted, hd]
  all_goals rfl

/-- With `check = 0` the workers leave the results alone. -/
def Untouched (ti : TestInfo) (g : CycleMem K) : Prop :=
  g.mem.ti.warps = ti.warps ∧ g.mem.ti.stalls = ti.stalls ∧ g.mem.ti.worst = ti.worst ∧
    g.mem.ti.last = ti.last

theorem cycle_untouched (K : Clock) (a : CycleArgs) (A : ℕ → WorkerEvent K → Prop) (ti : TestInfo)
    (hcheck : a.check = 0) :
    (cycle K a).Inductive A (fun g => Launched a g ∧ Untouched ti g)
      (fun cpu g w => Placed a cpu g w ∧ True) := by
  refine (cycle_placed K a A).and ?_ ?_ ?_
  · intro cpu e g w g' w' _hA hI hP hJ _hQ h
    obtain ⟨m, hstep, rfl⟩ := cycle_thread h
    refine ⟨?_, trivial⟩
    obtain ⟨-, -, hck, hloop⟩ := hP
    cases hstep <;> simp_all [Worker.InLoop, Untouched]
  · exact fun _ _ _ _ _ _ _ _ _ => trivial
  · intro e g g' _ hJ h
    refine ⟨?_, fun _ _ _ _ => trivial⟩
    unfold Untouched at hJ ⊢
    rw [(cycle_env h).2.2]
    exact hJ

theorem logged_le_loops {loops : ℕ} {w : Worker K} (h : w.InLoop loops) : w.logged ≤ loops := by
  obtain ⟨check, i, pc⟩ := w
  by_cases hcheck : check = 0
  · cases pc <;> simp_all [Worker.InLoop, Worker.logged]
  · cases pc <;> simp only [Worker.InLoop, Worker.logged, hcheck, if_false] at h ⊢ <;> omega

/-! ## When no worker is between its two sections -/

/-- Every worker has finished or has not started. -/
def Quiet (s : CycleState K) : Prop :=
  ∀ cpu, (s.locals cpu).pc = .idle ∨ (s.locals cpu).pc = .done

theorem quiet_of_finished {s : CycleState K} (hs : Threads.Holds (Launched a) (Placed a) s)
    (hdone : ∀ cpu < a.ncpus, a.launch cpu = true → (s.locals cpu).pc = .done) : Quiet s := by
  intro cpu
  by_cases hidle : (s.locals cpu).pc = .idle
  · exact .inl hidle
  · obtain ⟨hpassed, hlaunch, -⟩ := (hs.2 cpu).1 hidle
    exact .inr (hdone cpu (passed_lt hpassed) hlaunch)

section Reached

variable {A : ℕ → WorkerEvent K → Prop} {clock : K.Shared} {ti : TestInfo}
  {tr : List (CycleAction K)} {s : CycleState K}

theorem cycleStart_warpHeld (a : CycleArgs) (clock : K.Shared) (hlock : ti.lock = none) :
    Threads.Holds (fun g => (True ∧ Launched a g) ∧ True)
      (fun cpu g w => (LockedBy cpu g w ∧ Placed a cpu g w) ∧ WarpHeld cpu g w)
      (cycleStart K clock ti) := by
  have hplaced := cycleStart_placed (K := K) a clock ti
  refine ⟨⟨⟨trivial, hplaced.1⟩, trivial⟩, fun cpu => ⟨⟨?_, hplaced.2 cpu⟩, trivial⟩⟩
  simp [LockedBy, cycleStart, Worker.idle, Pc.holdsLock, hlock]

theorem reached_entries (htr : ∀ x ∈ tr, Threads.Allowed A x) (hlock : ti.lock = none)
    (h : (cycle K a).machine.run (cycleStart K clock ti) tr = some s) :
    WorstFrom ti.worst s.shared ∧ ∀ cpu, EntriesOf cpu s.shared (s.locals cpu) := by
  have hheld := cycleStart_warpHeld a clock hlock
  have hstart : Threads.Holds (fun g => ((True ∧ Launched a g) ∧ True) ∧ WorstFrom ti.worst g)
      (fun cpu g w => ((LockedBy cpu g w ∧ Placed a cpu g w) ∧ WarpHeld cpu g w) ∧
        EntriesOf cpu g w) (cycleStart K clock ti) := by
    refine ⟨⟨hheld.1, le_rfl, .inl rfl⟩, fun cpu => ⟨hheld.2 cpu, ?_⟩⟩
    simp [EntriesOf, cycleStart, Worker.idle, Worker.logged, entries, Pc.unmeasured?]
  have hs := (cycle_entries K a A ti.worst).run htr h hstart
  exact ⟨hs.1.2, fun cpu => (hs.2 cpu).2⟩

/-- Counted and pending warps are the negative entries of the log. -/
theorem reached_warps (htr : ∀ x ∈ tr, Threads.Allowed A x) (hlock : ti.lock = none)
    (h : (cycle K a).machine.run (cycleStart K clock ti) tr = some s) :
    s.shared.mem.ti.warps - (warpCount s.shared.mem.log : U64) +
      Threads.total (Finset.range a.ncpus)
        (fun w : Worker K => if w.pc.uncounted then (1 : U64) else 0) s.locals = ti.warps := by
  have hbalance := Threads.conserved (T := cycle K a) (J := Finset.range a.ncpus)
    (V := fun g => g.mem.ti.warps - (warpCount g.mem.log : U64))
    (f := fun w : Worker K => if w.pc.uncounted then (1 : U64) else 0)
    (fun _ _ _ hx hs hstep => (cycle_warpHeld K a A).step hx hs hstep)
    (fun {u cpu e g w} _ hu hw => by
      obtain ⟨m, hwork, rfl⟩ := cycle_thread hw
      exact ⟨worker_mem_range hu.1.1.2 (hu.2 cpu).1.2 hwork,
        worker_warps (hu.2 cpu).2 hwork⟩)
    (fun {u e g} _ hg => by
      obtain ⟨hlog, -, hti⟩ := cycle_env hg
      rw [hlog, hti])
    htr (cycleStart_warpHeld a clock hlock) h
  have hnone : Threads.total (Finset.range a.ncpus)
      (fun w : Worker K => if w.pc.uncounted then (1 : U64) else 0)
      (cycleStart K clock ti).locals = 0 := by
    apply Threads.total_eq_zero
    intro cpu _
    rfl
  rw [hbalance, hnone]
  simp [cycleStart, warpCount]

theorem quiet_warps (htr : ∀ x ∈ tr, Threads.Allowed A x) (hlock : ti.lock = none)
    (h : (cycle K a).machine.run (cycleStart K clock ti) tr = some s) (hquiet : Quiet s) :
    s.shared.mem.ti.warps = ti.warps + (warpCount s.shared.mem.log : U64) := by
  have hnone : Threads.total (Finset.range a.ncpus)
      (fun w : Worker K => if w.pc.uncounted then (1 : U64) else 0) s.locals = 0 := by
    apply Threads.total_eq_zero
    intro cpu _
    rcases hquiet cpu with hpc | hpc <;> simp [hpc, Pc.uncounted]
  rw [← reached_warps htr hlock h, hnone]
  ring

theorem quiet_worst (htr : ∀ x ∈ tr, Threads.Allowed A x) (hlock : ti.lock = none)
    (h : (cycle K a).machine.run (cycleStart K clock ti) tr = some s) (hquiet : Quiet s) :
    IsLeast ({ti.worst} ∪ warpDeltas s.shared.mem.log) s.shared.mem.ti.worst := by
  obtain ⟨⟨hle, hfrom⟩, hentries⟩ := reached_entries htr hlock h
  refine ⟨hfrom, ?_⟩
  rintro d (rfl | ⟨hneg, e, he, rfl⟩)
  · exact hle
  · apply ((hentries e.cpu).2.1 e he rfl hneg).resolve_right
    rcases hquiet e.cpu with hpc | hpc <;> simp [hpc, Pc.unmeasured?]

theorem quiet_entries (htr : ∀ x ∈ tr, Threads.Allowed A x) (hlock : ti.lock = none)
    (h : (cycle K a).machine.run (cycleStart K clock ti) tr = some s) (hcheck : a.check ≠ 0)
    (hdone : ∀ cpu < a.ncpus, a.launch cpu = true → (s.locals cpu).pc = .done) (cpu i : ℕ) :
    entries s.shared.mem.log cpu i =
      if (cpu < a.ncpus ∧ a.launch cpu = true) ∧ i < a.loops then 1 else 0 := by
  obtain ⟨hstart, -, hck, hloop⟩ := (cycle_reachable_placed htr h).2 cpu
  rw [((reached_entries htr hlock h).2 cpu).1 i]
  by_cases hcpu : cpu < a.ncpus ∧ a.launch cpu = true
  · have hpc := hdone cpu hcpu.1 hcpu.2
    have hc : (s.locals cpu).check = a.check := hck (by simp [hpc]) (by simp [hpc])
    have hi : (s.locals cpu).i = a.loops := by simpa [Worker.InLoop, hpc] using hloop
    simp [Worker.logged, hpc, hc, hcheck, hi, hcpu]
  · have hpc : (s.locals cpu).pc = .idle := by
      by_contra hpc
      exact hcpu ⟨passed_lt (hstart hpc).1, (hstart hpc).2.1⟩
    simp [Worker.logged, hpc, hcpu]

/-- The entries are pairs of a launched worker and an iteration, each at most once. -/
theorem reached_log_length (htr : ∀ x ∈ tr, Threads.Allowed A x) (hlock : ti.lock = none)
    (h : (cycle K a).machine.run (cycleStart K clock ti) tr = some s) :
    s.shared.mem.log.length ≤ a.ncpus * a.loops := by
  have hentries := fun cpu => ((reached_entries htr hlock h).2 cpu).1
  have hplaced := (cycle_reachable_placed htr h).2
  let pairs : List (ℕ × ℕ) := s.shared.mem.log.map fun e => (e.cpu, e.iter)
  have hcount : ∀ p : ℕ × ℕ, pairs.count p = entries s.shared.mem.log p.1 p.2 := by
    intro p
    simp only [pairs, List.count, List.countP_map, entries]
    apply List.countP_congr
    intro e _
    simp [Prod.ext_iff]
  have hnodup : pairs.Nodup := by
    rw [List.nodup_iff_count_le_one]
    intro p
    rw [hcount, hentries]
    split_ifs <;> omega
  have hsub : pairs.toFinset ⊆ Finset.range a.ncpus ×ˢ Finset.range a.loops := by
    intro p hp
    have hpos : 0 < entries s.shared.mem.log p.1 p.2 := by
      rw [← hcount]
      exact List.count_pos_iff.mpr (List.mem_toFinset.mp hp)
    have hlt : p.2 < (s.locals p.1).logged := by
      by_contra hge
      rw [hentries, if_neg hge] at hpos
      exact hpos.false
    obtain ⟨hstart, -, -, hloop⟩ := hplaced p.1
    have hidle : (s.locals p.1).pc ≠ .idle := by
      intro hpc
      simp [Worker.logged, hpc] at hlt
    rw [Finset.mem_product, Finset.mem_range, Finset.mem_range]
    exact ⟨passed_lt (hstart hidle).1, hlt.trans_le (logged_le_loops hloop)⟩
  calc
    s.shared.mem.log.length = pairs.toFinset.card := by
      rw [List.toFinset_card_of_nodup hnodup, List.length_map]
    _ ≤ (Finset.range a.ncpus ×ˢ Finset.range a.loops).card := Finset.card_le_card hsub
    _ = a.ncpus * a.loops := by rw [Finset.card_product, Finset.card_range, Finset.card_range]

theorem reached_untouched (htr : ∀ x ∈ tr, Threads.Allowed A x)
    (h : (cycle K a).machine.run (cycleStart K clock ti) tr = some s) (hcheck : a.check = 0) :
    Untouched ti s.shared := by
  have hplaced := cycleStart_placed (K := K) a clock ti
  exact ((cycle_untouched K a A ti hcheck).run htr h
    ⟨⟨hplaced.1, rfl, rfl, rfl, rfl⟩, fun cpu => ⟨hplaced.2 cpu, trivial⟩⟩).1.2

end Reached

/-- When the launched workers have finished, the log holds one entry for each of them and
each iteration, `warps` has grown by the number of negative entries, and `worst` is the
least of its old value and these; without `check` nothing has changed; the verdict is
whether `warps` is non-zero. -/
theorem warps_and_worst_exact (K : Clock) (a : CycleArgs) (clock : K.Shared) (ti : TestInfo)
    (hlock : ti.lock = none) (tr : List (CycleAction K)) (s : CycleState K)
    (hrun : (cycle K a).machine.run (cycleStart K clock ti) tr = some s)
    (hdone : ∀ cpu < a.ncpus, a.launch cpu = true → (s.locals cpu).pc = .done) :
    (a.check ≠ 0 →
      (∀ cpu i, entries s.shared.mem.log cpu i =
        if (cpu < a.ncpus ∧ a.launch cpu = true) ∧ i < a.loops then 1 else 0) ∧
      s.shared.mem.ti.warps = ti.warps + (warpCount s.shared.mem.log : U64) ∧
      IsLeast ({ti.worst} ∪ warpDeltas s.shared.mem.log) s.shared.mem.ti.worst) ∧
    (a.check = 0 → s.shared.mem.ti.warps = ti.warps ∧ s.shared.mem.ti.stalls = ti.stalls ∧
      s.shared.mem.ti.worst = ti.worst ∧ s.shared.mem.ti.last = ti.last) ∧
    (∀ printed result, s.shared.main = .returned printed result →
      (result = 1 ↔ s.shared.mem.ti.warps ≠ 0)) := by
  have htr := Threads.allowed_true tr
  have hquiet := quiet_of_finished (cycle_reachable_placed htr hrun) hdone
  refine ⟨fun hcheck => ⟨?_, ?_, ?_⟩, fun hcheck => ?_, fun printed result hmain => ?_⟩
  · exact quiet_entries htr hlock hrun hcheck hdone
  · exact quiet_warps htr hlock hrun hquiet
  · exact quiet_worst htr hlock hrun hquiet
  · exact reached_untouched htr hrun hcheck
  · have hreports := (cycle_joins htr hrun).reports
    rw [hmain] at hreports
    obtain ⟨-, rfl⟩ := hreports
    simp

/-- The second worker reads 15 after the first one has stored 20. -/
theorem warps_and_worst_exact_inverted :
    ∃ (tr : List (CycleAction pvclock)) (s : CycleState pvclock),
    (cycle pvclock ⟨2, 1, 1, fun _ => true⟩).machine.run
      (cycleStart pvclock ⟨1, 0⟩ TestInfo.zero) tr = some s ∧
    s.shared.main = .returned (some ⟨1, 0, -5⟩) 1 ∧ warpCount s.shared.mem.log = 1 ∧
    IsLeast ({0} ∪ warpDeltas s.shared.mem.log) (-5) := by
  obtain ⟨s, hs, hread⟩ := Option.map_eq_some_iff.mp
    (show ((cycle pvclock ⟨2, 1, 1, fun _ => true⟩).machine.run
      (cycleStart pvclock ⟨1, 0⟩ TestInfo.zero)
      (callerSteps 5 ++ ownSteps 0 2 ++ fastSection 0 10 20 ++ ownSteps 1 2 ++
        fastSection 1 15 25 ++ ownSteps 0 3 ++ ownSteps 1 9 ++ callerSteps 5)).map
        (fun s => (s.shared.main, warpCount s.shared.mem.log, s.shared.mem.ti.worst)) =
        some (.returned (some ⟨1, 0, -5⟩) 1, 1, -5) by decide)
  simp only [Prod.mk.injEq] at hread
  obtain ⟨hmain, hcount, hworst⟩ := hread
  have hdone := (cycle_joins (Threads.allowed_true _) hs).joined (by rw [hmain]; rfl)
  have hexact := warps_and_worst_exact pvclock _ _ TestInfo.zero rfl _ s hs
    (fun cpu hcpu _ => hdone cpu hcpu)
  exact ⟨_, s, hs, hmain, hcount, hworst ▸ (hexact.1 (by decide)).2.2⟩

end PcmTest.Kvmclock
