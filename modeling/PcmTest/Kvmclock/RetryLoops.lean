import PcmTest.Kvmclock.Clocksource
import PcmTest.Theory.SeqLock

/-!
# The version loops of kvmclock_test.c

`pvclock_read_wallclock` and `pvclock_clocksource_read` copy a structure that the
host updates under a version word. Both loops load a version, the fields, and then
test `(p->version & 1) || version != p->version`, which is two further loads; the
version of the first load is never tested for parity. In the second loop the first
load and the fields are inside the kernel's `__pvclock_read_cycles`, of which only
the order is used: it loads the version it returns before it loads any field.
-/

namespace PcmTest.Kvmclock

open Theory

inductive WallClockField where
  | sec
  | nsec
  deriving DecidableEq

def pvclockReadWallclockLoop :
    Machine (SeqLock.State 32 WallClockField U32) (SeqLock.Action WallClockField U32) :=
  SeqLock.machine 32 U32 [.sec, .nsec]

/-- The `do` loop of `pvclock_clocksource_read` against the host, where
`__pvclock_read_cycles` loads `fields` after the version. -/
def pvclockClocksourceReadLoop {ι : Type} [DecidableEq ι] (α : Type) (fields : List ι) :
    Machine (SeqLock.State 32 ι α) (SeqLock.Action ι α) :=
  SeqLock.machine 32 α fields

/-- Whenever one of the loops exits, with fewer than 2^32 version increments in its last
attempt, the loaded fields all come from one publication of the host. -/
theorem retry_loops_consistent :
    (∀ version payload tr s loaded,
      pvclockReadWallclockLoop.run (SeqLock.start version payload) tr = some s →
      s.reader = .exited loaded → s.ticks < 2 ^ 32 →
      ∃ p ∈ s.published, loaded = [(.sec, p .sec), (.nsec, p .nsec)]) ∧
    (∀ (ι α : Type) [DecidableEq ι] (fields : List ι) version payload tr s loaded,
      (pvclockClocksourceReadLoop α fields).run (SeqLock.start version payload) tr = some s →
      s.reader = .exited loaded → s.ticks < 2 ^ 32 →
      ∃ p ∈ s.published, loaded = fields.map fun i => (i, p i)) := by
  constructor
  · intro version payload tr s loaded hrun hexit hticks
    exact SeqLock.exit_consistent hrun hexit hticks
  · intro ι α _ fields version payload tr s loaded hrun hexit hticks
    exact SeqLock.exit_consistent hrun hexit hticks

/-- An update between the loads of `sec` and `nsec` makes the loop go round again. -/
theorem retry_loops_consistent_torn : ∃ s : SeqLock.State 32 WallClockField U32,
    s.reader = .exited [(.sec, 11), (.nsec, 21)] ∧
    ∃ p ∈ s.published, p .sec = 11 ∧ p .nsec = 21 := by
  let host : List (SeqLock.Action WallClockField U32) :=
    [.beginUpdate, .write .nsec 21, .write .sec 11, .publish]
  obtain ⟨s, hs, hread⟩ := Option.map_eq_some_iff.mp
    (show (pvclockReadWallclockLoop.run (SeqLock.start 0 fun _ => 10)
      ([.read, .read] ++ host ++ List.replicate 10 .read)).map (fun s => (s.reader, s.ticks)) =
        some (.exited [(.sec, 11), (.nsec, 21)], 0) by decide)
  obtain ⟨hexit, hticks⟩ := Prod.mk.inj hread
  obtain ⟨p, hp, hl⟩ :=
    retry_loops_consistent.1 _ _ _ s _ hs hexit (by rw [hticks]; decide)
  refine ⟨s, hexit, p, hp, ?_⟩
  simpa [eq_comm] using hl

end PcmTest.Kvmclock
