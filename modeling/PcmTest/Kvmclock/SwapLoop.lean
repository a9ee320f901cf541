import PcmTest.Kvmclock.Clocksource

/-!
# Attempts of the compare-and-swap loop

The loop of `pvclock_clocksource_read` leaves on `last == ret`, not on a swap that
succeeded, so its own swap buys one more round. The reader is run against an
environment that may raise `last_value` before any of its accesses; the machine
keeps the number of attempts, of successes, and of changes that fell inside the
loop.
-/

namespace PcmTest.Kvmclock

/-- One reader inside the loop, with the counts of what has happened since its first load. -/
structure SwapLoop where
  clock : ClockStatics
  call : ReadCall
  attempts : ℕ
  successes : ℕ
  changes : ℕ
  deriving DecidableEq, Repr

inductive SwapLoopAction where
  | reader
  | environment (v : U64)
  deriving DecidableEq, Repr

namespace ReadCall

/-- The next access of the call is a compare-and-swap. -/
def attempts : ReadCall → Bool
  | .swap _ _ => true
  | _ => false

/-- The next access of the call is a compare-and-swap that finds the word it expects. -/
def succeeds (lastValue : U64) : ReadCall → Bool
  | .swap _ last => lastValue = last
  | _ => false

def hasReturned : ReadCall → Bool
  | .returned _ _ _ => true
  | _ => false

end ReadCall

namespace SwapLoop

/-- The reader is about to make its first load. -/
def start (g : ClockStatics) (ret : U64) : SwapLoop := ⟨g, .lastLoad ret, 0, 0, 0⟩

def step (s : SwapLoop) : SwapLoopAction → Option SwapLoop
  | .reader => (pvclockClocksourceRead s.clock s.call .proceed).map fun r =>
    { clock := r.1
      call := r.2
      attempts := s.attempts + s.call.attempts.toNat
      successes := s.successes + (s.call.succeeds s.clock.lastValue).toNat
      changes := s.changes }
  | .environment v =>
    if s.clock.lastValue < v then
      some { s with
        clock := { s.clock with lastValue := v }
        changes := s.changes + s.call.attempts.toNat }
    else none

def machine : Theory.Machine SwapLoop SwapLoopAction := ⟨step⟩

def isReader : SwapLoopAction → Bool
  | .reader => true
  | .environment _ => false

/-- The counts while the reader expects `last`: an attempt that failed was preceded by a
change, and a swap that succeeded left `last_value` at `ret` or above. -/
def Attempting (ret last lastValue : U64) (attempts successes changes : ℕ) : Prop :=
  last ≤ ret ∧ last ≤ lastValue ∧
    (successes = 0 ∧ attempts ≤ changes ∧ (lastValue ≠ last → attempts < changes) ∨
      successes = 1 ∧ attempts ≤ changes + 1 ∧ last < ret ∧ ret ≤ lastValue)

/-- What the counts satisfy at each place of the call. -/
def Counted (ret : U64) (s : SwapLoop) : Prop :=
  match s.call with
  | .lastLoad r => r = ret ∧ s.attempts = 0 ∧ s.successes = 0 ∧ s.changes = 0
  | .swap r last =>
    r = ret ∧ Attempting ret last s.clock.lastValue s.attempts s.successes s.changes
  | .returned _ _ _ => s.attempts ≤ s.changes + 2 ∧ s.successes ≤ 1
  | _ => False

/-- The distance to the exit: the gap between `ret` and the expected word, and a last round
once the own swap has happened. -/
def rank (s : SwapLoop) : ℕ :=
  match s.call with
  | .lastLoad ret => ret.toNat + 3
  | .swap ret last => if s.successes = 0 then ret.toNat - last.toNat + 2 else 1
  | _ => 0

theorem counted_start (g : ClockStatics) (ret : U64) : Counted ret (start g ret) :=
  ⟨rfl, rfl, rfl, rfl⟩

theorem loopHead_of_lt {ret last : U64} (h : ret < last) :
    loopHead ret last = .returned .slow ret last := if_pos h

theorem loopHead_of_le {ret last : U64} (h : last ≤ ret) : loopHead ret last = .swap ret last :=
  if_neg (BitVec.not_lt.mpr h)

/-- The loop goes on exactly while the word found is below `ret`. -/
theorem loopTest_of_lt {ret last : U64} (h : last < ret) : loopTest ret last = .swap ret last := by
  rw [loopTest, if_pos (BitVec.ne_of_lt h), loopHead_of_le (BitVec.le_of_lt h)]

theorem loopTest_of_le {ret last : U64} (h : ret ≤ last) :
    loopTest ret last = .returned .slow ret last := by
  rw [loopTest]
  split_ifs with hne
  · exact loopHead_of_lt (BitVec.lt_of_le_ne h (Ne.symm hne))
  · rw [not_ne_iff] at hne
    rw [hne]

/-- What the reader's next access does from the places that a call in the loop can be at. -/
theorem reader_cases {s t : SwapLoop} (h : step s .reader = some t) {ret : U64}
    (hs : Counted ret s) :
    s.call = .lastLoad ret ∧ t = { s with call := loopHead ret s.clock.lastValue } ∨
    (∃ last, s.call = .swap ret last ∧ s.clock.lastValue = last ∧
      t = { s with
        clock := { s.clock with lastValue := ret }
        call := loopTest ret last
        attempts := s.attempts + 1
        successes := s.successes + 1 }) ∨
    (∃ last, s.call = .swap ret last ∧ s.clock.lastValue ≠ last ∧
      t = { s with call := loopTest ret s.clock.lastValue, attempts := s.attempts + 1 }) := by
  obtain ⟨⟨flags, mem⟩, call, attempts, successes, changes⟩ := s
  cases call with
  | retry => exact hs.elim
  | flagTest r flags => exact hs.elim
  | lastLoad r =>
    obtain ⟨rfl, -⟩ := hs
    cases h
    exact .inl ⟨rfl, rfl⟩
  | swap r last =>
    obtain ⟨rfl, -⟩ := hs
    by_cases hmem : mem = last
    · simp_all [step, pvclockClocksourceRead, atomic64Cmpxchg, ReadCall.attempts,
        ReadCall.succeeds]
    · simp_all [step, pvclockClocksourceRead, atomic64Cmpxchg, ReadCall.attempts,
        ReadCall.succeeds]
  | returned path r value => simp [step, pvclockClocksourceRead] at h

theorem environment_cases {s t : SwapLoop} {v : U64} (h : step s (.environment v) = some t) :
    s.clock.lastValue < v ∧ t = { s with
      clock := { s.clock with lastValue := v }
      changes := s.changes + s.call.attempts.toNat } := by
  rw [step] at h
  split_ifs at h with hlt
  exact ⟨hlt, (Option.some.inj h).symm⟩

/-- The counts at the head of the loop, when the own swap has not happened. -/
theorem counted_loopHead {ret last : U64} {s : SwapLoop} (hcall : s.call = loopHead ret last)
    (hlast : last ≤ s.clock.lastValue) (hzero : s.successes = 0) (hle : s.attempts ≤ s.changes)
    (hstale : s.clock.lastValue ≠ last → s.attempts < s.changes) : Counted ret s := by
  by_cases hlt : ret < last
  · have hret : s.call = .returned .slow ret last := by rw [hcall, loopHead_of_lt hlt]
    rw [Counted, hret]
    omega
  · have hge : last ≤ ret := BitVec.not_lt.mp hlt
    have hswap : s.call = .swap ret last := by rw [hcall, loopHead_of_le hge]
    rw [Counted, hswap]
    exact ⟨rfl, hge, hlast, .inl ⟨hzero, hle, hstale⟩⟩

theorem counted_returned {ret value : U64} {s : SwapLoop}
    (hcall : s.call = .returned .slow ret value) (hle : s.attempts ≤ s.changes + 2)
    (hone : s.successes ≤ 1) : Counted ret s := by
  rw [Counted, hcall]
  exact ⟨hle, hone⟩

theorem counted_reader {ret : U64} {s t : SwapLoop} (hs : Counted ret s)
    (h : step s .reader = some t) : Counted ret t := by
  rcases reader_cases h hs with ⟨hcall, rfl⟩ | ⟨last, hcall, hmem, rfl⟩ | ⟨last, hcall, hmem, rfl⟩
  · rw [Counted, hcall] at hs
    obtain ⟨-, ha, hsu, hch⟩ := hs
    exact counted_loopHead rfl (BitVec.le_refl _) hsu (by simp [ha]) fun hne => (hne rfl).elim
  · -- the swap succeeded: it is the first to do so, since a later one finds a larger word
    rw [Counted, hcall] at hs
    obtain ⟨-, hle, -, ⟨hzero, hatt, -⟩ | ⟨-, -, hlt, hret⟩⟩ := hs
    · by_cases hlast : last < ret
      · rw [loopTest_of_lt hlast]
        refine ⟨rfl, hle, BitVec.le_of_lt hlast, .inr ⟨?_, ?_, hlast, BitVec.le_refl _⟩⟩
        · simp [hzero]
        · exact Nat.add_le_add_right hatt 1
      · rw [loopTest_of_le (BitVec.not_lt.mp hlast)]
        apply counted_returned rfl
        · dsimp only
          omega
        · dsimp only
          omega
    · rw [hmem] at hret
      exact absurd hret (BitVec.not_le.mpr hlt)
  · rw [Counted, hcall] at hs
    obtain ⟨-, hle, hseen, ⟨hzero, hatt, hstale⟩ | ⟨hone, hatt, hlt, hret⟩⟩ := hs
    · have hchange := hstale hmem
      by_cases hlast : s.clock.lastValue < ret
      · have hhead : loopTest ret s.clock.lastValue = loopHead ret s.clock.lastValue := by
          rw [loopTest_of_lt hlast, loopHead_of_le (BitVec.le_of_lt hlast)]
        exact counted_loopHead hhead (BitVec.le_refl _) hzero hchange fun hne => (hne rfl).elim
      · rw [loopTest_of_le (BitVec.not_lt.mp hlast)]
        apply counted_returned rfl
        · dsimp only
          omega
        · dsimp only
          omega
    · rw [loopTest_of_le hret]
      apply counted_returned rfl
      · dsimp only
        omega
      · dsimp only
        omega

theorem counted_environment {ret v : U64} {s t : SwapLoop} (hs : Counted ret s)
    (h : step s (.environment v) = some t) : Counted ret t := by
  obtain ⟨hlt, rfl⟩ := environment_cases h
  obtain ⟨⟨flags, mem⟩, call, attempts, successes, changes⟩ := s
  cases call with
  | retry => exact hs.elim
  | flagTest r flags => exact hs.elim
  | lastLoad r => exact hs
  | swap r last =>
    obtain ⟨rfl, hle, hseen, hcount⟩ := hs
    refine ⟨rfl, hle, BitVec.le_trans hseen (BitVec.le_of_lt hlt), ?_⟩
    dsimp only [ReadCall.attempts, Bool.toNat_true] at hcount ⊢
    rcases hcount with ⟨hzero, hatt, -⟩ | ⟨hone, hatt, hgap, hret⟩
    · exact .inl ⟨hzero, by omega, fun _ => by omega⟩
    · exact .inr ⟨hone, by omega, hgap, BitVec.le_trans hret (BitVec.le_of_lt hlt)⟩
  | returned path r value =>
    obtain ⟨hatt, hone⟩ := hs
    exact ⟨Nat.le_trans hatt (by simp), hone⟩

theorem counted_step {ret : U64} {s t : SwapLoop} {a : SwapLoopAction} (hs : Counted ret s)
    (h : machine.step s a = some t) : Counted ret t := by
  cases a with
  | reader => exact counted_reader hs h
  | environment v => exact counted_environment hs h

theorem counted_run {ret : U64} {g : ClockStatics} {tr : List SwapLoopAction} {s : SwapLoop}
    (hrun : machine.run (start g ret) tr = some s) : Counted ret s :=
  Theory.Machine.run_preserves (Counted ret) (fun _ => True)
    (fun _ _ _ _ hs h => counted_step hs h) (fun _ _ => trivial) (counted_start g ret) hrun

theorem counts_le {ret : U64} {s : SwapLoop} (hs : Counted ret s) :
    s.attempts ≤ s.changes + 2 ∧ s.successes ≤ 1 := by
  obtain ⟨clock, call, attempts, successes, changes⟩ := s
  cases call with
  | retry => exact hs.elim
  | flagTest r flags => exact hs.elim
  | lastLoad r =>
    obtain ⟨-, ha, hsu, -⟩ := hs
    dsimp only at *
    omega
  | swap r last =>
    obtain ⟨-, -, -, hcount⟩ := hs
    dsimp only at hcount ⊢
    omega
  | returned path r value => exact hs

/-- A reader that has not returned can make its next access. -/
theorem reader_enabled {ret : U64} {s : SwapLoop} (hs : Counted ret s)
    (h : s.call.hasReturned = false) : (machine.step s .reader).isSome = true := by
  obtain ⟨clock, call, attempts, successes, changes⟩ := s
  cases call with
  | retry => exact hs.elim
  | flagTest r flags => exact hs.elim
  | lastLoad r => rfl
  | swap r last => rfl
  | returned path r value => cases h

theorem rank_swap {ret last : U64} {s : SwapLoop} (hcall : s.call = .swap ret last) :
    rank s = if s.successes = 0 then ret.toNat - last.toNat + 2 else 1 := by
  rw [rank, hcall]

theorem rank_loopHead {ret last : U64} {s : SwapLoop} (hcall : s.call = loopHead ret last) :
    rank s = if ret < last then 0
      else if s.successes = 0 then ret.toNat - last.toNat + 2 else 1 := by
  rw [rank, hcall, loopHead]
  split_ifs <;> rfl

theorem rank_loopTest {ret last : U64} {s : SwapLoop} (hcall : s.call = loopTest ret last) :
    rank s = if ret ≤ last then 0
      else if s.successes = 0 then ret.toNat - last.toNat + 2 else 1 := by
  split_ifs with hle
  · rw [rank, hcall, loopTest_of_le hle]
  · rw [loopTest_of_lt (BitVec.not_le.mp hle)] at hcall
    rw [rank_swap hcall, if_pos ‹_›]
  · rw [loopTest_of_lt (BitVec.not_le.mp hle)] at hcall
    rw [rank_swap hcall, if_neg ‹_›]

/-- Every access of the reader comes closer to the exit. -/
theorem rank_reader {ret : U64} {s t : SwapLoop} (hs : Counted ret s)
    (h : step s .reader = some t) : rank t < rank s := by
  rcases reader_cases h hs with ⟨hcall, rfl⟩ | ⟨last, hcall, hmem, rfl⟩ | ⟨last, hcall, hmem, rfl⟩
  · have hrank : rank s = ret.toNat + 3 := by rw [rank, hcall]
    rw [hrank, rank_loopHead rfl]
    split_ifs <;> omega
  · rw [Counted, hcall] at hs
    obtain ⟨-, -, -, hcount⟩ := hs
    have hzero : s.successes = 0 := by
      rcases hcount with ⟨hzero, -⟩ | ⟨-, -, hlt, hret⟩
      · exact hzero
      · rw [hmem] at hret
        exact absurd hret (BitVec.not_le.mpr hlt)
    rw [rank_swap hcall, if_pos hzero, rank_loopTest rfl, if_neg (Nat.succ_ne_zero _)]
    split_ifs <;> omega
  · rw [Counted, hcall] at hs
    obtain ⟨-, -, hseen, hcount⟩ := hs
    rw [rank_swap hcall, rank_loopTest rfl]
    dsimp only
    by_cases hret : ret ≤ s.clock.lastValue
    · rw [if_pos hret]
      split_ifs <;> omega
    · -- the word found lies strictly between the expected one and `ret`
      have hzero : s.successes = 0 := by
        rcases hcount with ⟨hzero, -⟩ | ⟨-, -, -, hge⟩
        · exact hzero
        · exact absurd hge hret
      rw [if_neg hret, if_pos hzero, if_pos hzero]
      rw [BitVec.le_def] at hret hseen
      have hne : s.clock.lastValue.toNat ≠ last.toNat := fun he => hmem (BitVec.eq_of_toNat_eq he)
      omega

theorem rank_environment {v : U64} {s t : SwapLoop} (h : step s (.environment v) = some t) :
    rank t ≤ rank s := by
  obtain ⟨-, rfl⟩ := environment_cases h
  exact Nat.le_refl _

/-- The reader makes a bounded number of accesses, whatever the environment does. -/
theorem reader_steps_le {ret : U64} {g : ClockStatics} {tr : List SwapLoopAction} {s : SwapLoop}
    (hrun : machine.run (start g ret) tr = some s) : tr.countP isReader ≤ ret.toNat + 3 := by
  have hbound : tr.countP isReader + rank s ≤ rank (start g ret) := by
    apply Theory.Machine.run_countP_le (Counted ret) rank isReader _ _ _ (counted_start g ret) hrun
    · exact fun _ _ _ hs h => counted_step hs h
    · intro u a v hu h ha
      cases a with
      | reader => exact rank_reader hu h
      | environment w => cases ha
    · intro u a v _ h ha
      cases a with
      | reader => cases ha
      | environment w => exact rank_environment h
  have hstart : rank (start g ret) = ret.toNat + 3 := rfl
  omega

end SwapLoop

open SwapLoop in
/-- However the environment raises `last_value`, the loop ends after a bounded number of
accesses, with at most two attempts more than there were changes and one success. -/
theorem swapLoop_attempts (g : ClockStatics) (ret : U64) (tr : List SwapLoopAction)
    (s : SwapLoop) (hrun : SwapLoop.machine.run (start g ret) tr = some s) :
    tr.countP isReader ≤ ret.toNat + 3 ∧
      (s.call.hasReturned = false → (SwapLoop.machine.step s .reader).isSome = true) ∧
      s.attempts ≤ s.changes + 2 ∧ s.successes ≤ 1 := by
  have hs : Counted ret s := counted_run hrun
  refine ⟨reader_steps_le hrun, ?_, counts_le hs⟩
  exact fun hcall => reader_enabled hs hcall

/-- The bound is met: an attempt lost to the one change, the own swap, and the round after it. -/
theorem swapLoop_attempts_contended :
    let tr : List SwapLoopAction := [.reader, .environment 4, .reader, .reader, .reader]
    let s : SwapLoop := ⟨⟨0, 5⟩, .returned .slow 5 5, 3, 1, 1⟩
    SwapLoop.machine.run (SwapLoop.start ⟨0, 3⟩ 5) tr = some s ∧
      tr.countP SwapLoop.isReader ≤ (5 : U64).toNat + 3 ∧
      (s.call.hasReturned = false → (SwapLoop.machine.step s .reader).isSome = true) ∧
      s.attempts ≤ s.changes + 2 ∧ s.successes ≤ 1 :=
  ⟨by decide, swapLoop_attempts ⟨0, 3⟩ 5 _ _ (by decide)⟩

end PcmTest.Kvmclock
