import PcmTest.Kvmclock.Leftovers

/-!
# The totals of a history of ioctls

The four `test_info` are never reset, so what a call of `cycle_test` works on is the log of
all calls on the same `test_info` since the module was loaded: its totals, its verdict, and
the `last` that its first section compares with.
-/

namespace PcmTest.Kvmclock

open Theory

variable {p : Platform} {σ : Statics} {logs : Fin 4 → List (Section pvclock)}

/-- The statics after some sequence of completed ioctls, with the critical sections of all of
them, phase by phase and latest first. -/
inductive Ioctls : Statics → (Fin 4 → List (Section pvclock)) → Prop
  | load : Ioctls Statics.zero fun _ => []
  | ioctl {σ : Statics} {logs : Fin 4 → List (Section pvclock)} {p : Platform}
      {tr : List TestAction} {s : TestState} : Ioctls σ logs →
      (test p).machine.run (testStart σ) tr = some s → s.shared.main = .exited →
      Ioctls (statics s) fun k => (s.shared.phases k).log ++ logs k

theorem Ioctls.history (h : Ioctls σ logs) : History σ := by
  induction h with
  | load => exact .load
  | ioctl _ hrun hexit ih => exact .ioctl ih hrun hexit

theorem ioctls_of_history (h : History σ) : ∃ logs, Ioctls σ logs := by
  induction h with
  | load => exact ⟨_, .load⟩
  | ioctl _ hrun hexit ih =>
    obtain ⟨logs, hσ⟩ := ih
    exact ⟨_, hσ.ioctl hrun hexit⟩

/-- The contents of a `test_info` are those that the sections `log` give from zero. -/
structure TotalsOf (check : ℤ) (ti : TestInfo) (log : List (Section pvclock)) : Prop where
  warps : ti.warps = (warpCount log : U64)
  worst : IsLeast ({0} ∪ warpDeltas log) ti.worst
  chained : Chained 0 log
  last : ti.last = lastStored 0 log
  plain : check = 0 → log = [] ∧ ti.stalls = 0

theorem chained_append {last : U64} {log old : List (Section pvclock)}
    (hold : Chained last old) (hlog : Chained (lastStored last old) log) :
    Chained last (log ++ old) ∧
      lastStored last (log ++ old) = lastStored (lastStored last old) log := by
  induction log with
  | nil => exact ⟨hold, rfl⟩
  | cons e log ih =>
    obtain ⟨hfirst, hrest⟩ := hlog
    obtain ⟨hchain, hlast⟩ := ih hrest
    exact ⟨⟨hfirst.trans hlast.symm, hchain⟩, rfl⟩

theorem warpCount_append (log old : List (Section pvclock)) :
    warpCount (log ++ old) = warpCount log + warpCount old := by
  simp [warpCount, List.countP_append]

theorem warpDeltas_append (log old : List (Section pvclock)) :
    warpDeltas (log ++ old) = warpDeltas log ∪ warpDeltas old := by
  ext d
  simp only [warpDeltas, List.mem_append, Set.mem_ofPred_eq, Set.mem_union]
  constructor
  · rintro ⟨hneg, e, he | he, rfl⟩
    · exact .inl ⟨hneg, e, he, rfl⟩
    · exact .inr ⟨hneg, e, he, rfl⟩
  · rintro (⟨hneg, e, he, rfl⟩ | ⟨hneg, e, he, rfl⟩)
    · exact ⟨hneg, e, .inl he, rfl⟩
    · exact ⟨hneg, e, .inr he, rfl⟩

/-- The least of a set stands for the set. -/
theorem isLeast_union {m n : ℤ} {S T : Set ℤ} (hm : IsLeast S m) (hn : IsLeast ({m} ∪ T) n) :
    IsLeast (S ∪ T) n := by
  refine ⟨?_, ?_⟩
  · rcases hn.1 with h | h
    · exact .inl (h ▸ hm.1)
    · exact .inr h
  · rintro d (hd | hd)
    · exact (hn.2 (.inl rfl)).trans (hm.2 hd)
    · exact hn.2 (.inr hd)

/-- What one call of `cycle_test` adds, at the end of its wait loop. -/
theorem call_totals {a : CycleArgs} {B : ℕ → WorkerEvent pvclock → Prop} {clock : ClockStatics}
    {ti : TestInfo} {tr : List (CycleAction pvclock)} {c : CycleState pvclock}
    {old : List (Section pvclock)} (htr : ∀ x ∈ tr, Threads.Allowed B x) (hlock : ti.lock = none)
    (h : (cycle pvclock a).machine.run (cycleStart pvclock clock ti) tr = some c)
    (hjoined : c.shared.main.joined = true) (hold : TotalsOf a.check ti old) :
    TotalsOf a.check c.shared.mem.ti (c.shared.mem.log ++ old) := by
  have hquiet : Quiet c := fun cpu => (joined_still htr h hjoined cpu).symm.imp_left fun h => h.1
  have hheld := cycleStart_warpHeld (K := pvclock) a clock hlock
  have hfree := ((cycle_chained pvclock a B ti.last).run htr h
    ⟨⟨trivial, fun _ => rfl, trivial⟩, fun cpu => ⟨(hheld.2 cpu).1.1, trivial⟩⟩).1.2
  have hchain : Chained (lastStored 0 old) c.shared.mem.log := hold.last ▸ hfree.2
  obtain ⟨hchained, hlast⟩ := chained_append hold.chained hchain
  refine ⟨?_, ?_, hchained, ?_, fun hcheck => ?_⟩
  · rw [quiet_warps htr hlock h hquiet, hold.warps, warpCount_append, Nat.cast_add, add_comm]
  · have hleast := isLeast_union hold.worst (quiet_worst htr hlock h hquiet)
    rw [Set.union_assoc, Set.union_comm (warpDeltas old), ← warpDeltas_append] at hleast
    exact hleast
  · rw [hlast, ← hold.last]
    exact hfree.1 (joined_unlocked htr hlock h hjoined)
  · obtain ⟨hnone, hstalls⟩ := hold.plain hcheck
    have huntouched := reached_untouched htr h hcheck
    refine ⟨?_, huntouched.2.1.trans hstalls⟩
    rw [hnone, List.append_nil, List.eq_nil_iff_forall_not_mem]
    intro e he
    -- without `check` no worker gets past an iteration with an entry
    have hentries := ((reached_entries htr hlock h).2 e.cpu).1 e.iter
    have hpos : 0 < entries c.shared.mem.log e.cpu e.iter :=
      List.countP_pos_iff.mpr ⟨e, he, by simp⟩
    have hnolog : (c.locals e.cpu).logged = 0 := by
      obtain ⟨hstart, -, hck, -⟩ := (cycle_reachable_placed htr h).2 e.cpu
      rcases hquiet e.cpu with hpc | hpc
      · simp [Worker.logged, hpc]
      · have hzero : (c.locals e.cpu).check = 0 :=
          (hck (by simp [hpc]) (by simp [hpc])).trans hcheck
        simp [Worker.logged, hpc, hzero]
    rw [hentries, hnolog] at hpos
    exact absurd hpos (by simp)

theorem phase_totals {k : Fin 4} {c : CycleState pvclock} (hlock : (σ.ti k).lock = none)
    (hold : TotalsOf (phaseCheck k) (σ.ti k) (logs k))
    (h : Reached p σ (fun _ _ _ => True) k c) (hjoined : c.shared.main.joined = true) :
    TotalsOf (phaseCheck k) c.shared.mem.ti (c.shared.mem.log ++ logs k) := by
  obtain ⟨clock, tr, -, htr, hrun⟩ := h
  exact call_totals (a := p.cycleArgs k) htr hlock hrun hjoined hold

theorem totals_load (check : ℤ) : TotalsOf check TestInfo.zero [] := by
  refine ⟨rfl, ?_, trivial, rfl, fun _ => ⟨rfl, rfl⟩⟩
  have hnone : warpDeltas ([] : List (Section pvclock)) = ∅ := by
    simp [warpDeltas]
  rw [hnone, Set.union_empty]
  exact isLeast_singleton

theorem Ioctls.totals (h : Ioctls σ logs) (k : Fin 4) :
    TotalsOf (phaseCheck k) (σ.ti k) (logs k) := by
  induction h with
  | load => exact totals_load _
  | ioctl hσ hrun hexit ih =>
    obtain ⟨clock, printed, result, hreached, -⟩ :=
      (test_phases hrun k).completed (by rw [hexit]; exact k.isLt)
    exact phase_totals (history_unlocked hσ.history k) ih hreached rfl

/-- A call of `cycle_test` works on the sections of its whole history: the `test_info` at its
return is what all of them give from zero, and with `check` the verdict is whether their
number of negative deltas is a multiple of `2 ^ 64`. -/
theorem totals_of_history (σ : Statics) (logs : Fin 4 → List (Section pvclock))
    (hσ : Ioctls σ logs) (p : Platform) (tr : List TestAction) (s : TestState)
    (hrun : (test p).machine.run (testStart σ) tr = some s) (k : Fin 4)
    (printed : Option Totals) (result : ℤ)
    (hmain : s.shared.main = .cycle k (.returned printed result)) :
    TotalsOf (phaseCheck k) (s.shared.phases k).ti ((s.shared.phases k).log ++ logs k) ∧
      (result = 0 ↔ 2 ^ 64 ∣ warpCount ((s.shared.phases k).log ++ logs k)) ∧
      (result = 0 ∨ result = 1) := by
  have hreached := (test_phases hrun k).active _ hmain
  have hlock := history_unlocked hσ.history k
  have htotals := phase_totals hlock (hσ.totals k) hreached rfl
  obtain ⟨-, -, -, -, hresult⟩ := completed_warps hlock hreached
  refine ⟨htotals, ?_, ?_⟩
  · have hzero : (s.shared.phases k).ti.warps = 0 ↔
        2 ^ 64 ∣ warpCount ((s.shared.phases k).log ++ logs k) := by
      have hwarps : (s.shared.phases k).ti.warps = BitVec.ofNat 64
          (warpCount ((s.shared.phases k).log ++ logs k)) := htotals.warps
      rw [hwarps, ← BitVec.toNat_inj, BitVec.toNat_ofNat]
      exact (Nat.dvd_iff_mod_eq_zero ..).symm
    rw [← hzero, hresult]
    split_ifs with hne
    · exact ⟨fun h => absurd h one_ne_zero, fun h => absurd h hne⟩
    · exact ⟨fun _ => not_not.mp hne, fun _ => rfl⟩
  · rw [hresult]
    split_ifs
    · exact .inr rfl
    · exact .inl rfl

/-- An ioctl without a negative delta, after one with a warp: the totals are those of both. -/
theorem totals_of_history_inherited :
    ∃ σ logs, Ioctls σ logs ∧ logs 0 ≠ [] ∧ ∃ (tr : List TestAction) (s : TestState) (stalls : U64),
    (test (onlinePlatform {0} defaultTestLoops)).machine.run (testStart σ) tr = some s ∧
    s.shared.main = .cycle 0 (.returned (some ⟨1, stalls, -5⟩) 1) ∧
    (∀ e ∈ (s.shared.phases 0).log, e.delta = 0) ∧
    TotalsOf 1 (s.shared.phases 0).ti ((s.shared.phases 0).log ++ logs 0) ∧
    ¬ 2 ^ 64 ∣ warpCount ((s.shared.phases 0).log ++ logs 0) := by
  obtain ⟨σ, hhistory, hwarps, hworst⟩ := history_warp
  obtain ⟨logs, hσ⟩ := ioctls_of_history hhistory
  have hlogs : logs 0 ≠ [] := by
    intro hnil
    have hnone := (hσ.totals 0).warps
    rw [hwarps, hnil] at hnone
    exact absurd hnone (by decide)
  obtain ⟨tr, s, stalls, hrun, hmain, hclean⟩ := phase_inherits hhistory hwarps hworst
  obtain ⟨htotals, hresult, -⟩ := totals_of_history σ logs hσ _ tr s hrun 0 _ _ hmain
  exact ⟨σ, logs, hσ, hlogs, tr, s, stalls, hrun, hmain, hclean, htotals,
    fun hdvd => absurd (hresult.mpr hdvd) (by decide)⟩

end PcmTest.Kvmclock
