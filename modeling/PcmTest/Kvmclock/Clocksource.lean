import PcmTest.Theory.Threads
import Mathlib.Data.BitVec

/-!
# The clock source read of kvmclock_test.c

`pvclock_clocksource_read` samples the vCPU's time structure, returns the sample
at once when both flag bytes carry the stable bit, and otherwise publishes it
through a compare-and-swap loop on `last_value`. A call is cut at its shared
accesses: the sampling retry loop, the load of `valid_flags`, the load of
`last_value`, and each `atomic64_cmpxchg`. The comparisons between them touch
only locals and belong to the access before them.
-/

namespace PcmTest.Kvmclock

abbrev U64 := BitVec 64
abbrev U32 := BitVec 32
abbrev U8 := BitVec 8

/-- The sign bit bound under which a `u64` and its `long long` reading agree. -/
def S63 : ℕ := 2 ^ 63

def pvclockTscStableBit : U8 := 1#8 <<< 0
def pvclockRawCycleBit : U8 := 1#8 <<< 7

/-- The file's statics `valid_flags` and `last_value`. -/
structure ClockStatics where
  validFlags : U8
  lastValue : U64
  deriving DecidableEq, Repr

def pvclockSetFlags (flags : U8) (g : ClockStatics) : ClockStatics :=
  { g with validFlags := flags }

/-- What the retry loop leaves in `ret` and `flags`. -/
structure Sample where
  ret : U64
  flags : U8
  deriving DecidableEq, Repr

/-- The condition of the early return. -/
def stablePath (validFlags flags : U8) : Bool :=
  validFlags &&& pvclockTscStableBit ≠ 0 ∧ flags &&& pvclockTscStableBit ≠ 0

inductive ReadPath where
  | fast
  | slow
  deriving DecidableEq, Repr

/-- The path that a call with these two flag bytes takes. -/
def pathOf (validFlags flags : U8) : ReadPath :=
  if stablePath validFlags flags then .fast else .slow

/-- Where a call of `pvclock_clocksource_read` stands, with its live locals. A
returned call keeps its sample `ret` beside the returned value. -/
inductive ReadCall where
  | retry
  | flagTest (ret : U64) (flags : U8)
  | lastLoad (ret : U64)
  | swap (ret last : U64)
  | returned (path : ReadPath) (ret value : U64)
  deriving DecidableEq, Repr

/-- The head of the `do` loop: `if (ret < last) return last`. -/
def loopHead (ret last : U64) : ReadCall :=
  if ret < last then .returned .slow ret last else .swap ret last

/-- The loop condition `last != ret`, after the swap has assigned `last`. -/
def loopTest (ret last : U64) : ReadCall :=
  if last ≠ ret then loopHead ret last else .returned .slow ret ret

/-- The new memory word and the word that was found there. -/
def atomic64Cmpxchg (mem old new : U64) : U64 × U64 :=
  (if mem = old then new else mem, mem)

inductive ReadEvent where
  | sample (x : Sample)
  | proceed
  deriving DecidableEq, Repr

/-- One shared access of a call. -/
def pvclockClocksourceRead (g : ClockStatics) :
    ReadCall → ReadEvent → Option (ClockStatics × ReadCall)
  | .retry, .sample x => some (g, .flagTest x.ret x.flags)
  | .flagTest ret flags, .proceed =>
    some (g, if stablePath g.validFlags flags then .returned .fast ret ret else .lastLoad ret)
  | .lastLoad ret, .proceed => some (g, loopHead ret g.lastValue)
  | .swap ret last, .proceed =>
    let r := atomic64Cmpxchg g.lastValue last ret
    some ({ g with lastValue := r.1 }, loopTest ret r.2)
  | _, _ => none

namespace ReadCall

def value? : ReadCall → Option U64
  | .returned _ _ value => some value
  | _ => none

/-- The raw value the call has sampled. -/
def raw? : ReadCall → Option U64
  | .retry => none
  | .flagTest ret _ | .lastLoad ret | .swap ret _ | .returned _ ret _ => some ret

/-- The call has not yet loaded `last_value`. -/
def BeforeLoad : ReadCall → Prop
  | .retry | .flagTest _ _ | .lastLoad _ => True
  | _ => False

/-- What a slow call knows of `last_value`: the word it holds was there. -/
def Behind (lastValue : U64) : ReadCall → Prop
  | .swap ret last => last ≤ ret ∧ last ≤ lastValue
  | .returned .slow ret value => ret ≤ value ∧ value ≤ lastValue
  | .returned .fast ret value => value = ret
  | _ => True

/-- The call's view of `last_value` has reached `x`. -/
def Beyond (x : U64) : ReadCall → Prop
  | .swap _ last => x ≤ last
  | .returned .slow _ value => x ≤ value
  | _ => True

/-- The words a call holds come from `R`. -/
def Within (R : U64 → Prop) : ReadCall → Prop
  | .retry => True
  | .flagTest ret _ | .lastLoad ret => R ret
  | .swap ret last => R ret ∧ R last
  | .returned _ ret value => R ret ∧ R value

/-- The call is on the path `p`, or will be once it tests the flags. -/
def OnPath (p : ReadPath) (validFlags : U8) : ReadCall → Prop
  | .retry => True
  | .flagTest _ flags => pathOf validFlags flags = p
  | .lastLoad _ | .swap _ _ => p = .slow
  | .returned path _ _ => path = p

theorem behind_mono {c : ReadCall} {x y : U64} (hxy : x ≤ y) (h : c.Behind x) : c.Behind y := by
  match c, h with
  | .retry, _ | .flagTest _ _, _ | .lastLoad _, _ => trivial
  | .swap _ _, h => exact ⟨h.1, BitVec.le_trans h.2 hxy⟩
  | .returned .slow _ _, h => exact ⟨h.1, BitVec.le_trans h.2 hxy⟩
  | .returned .fast _ _, h => exact h

theorem within_mono {R R' : U64 → Prop} (hR : ∀ w, R w → R' w) {c : ReadCall}
    (h : c.Within R) : c.Within R' := by
  match c, h with
  | .retry, _ => trivial
  | .flagTest _ _, h | .lastLoad _, h => exact hR _ h
  | .swap _ _, h | .returned _ _ _, h => exact ⟨hR _ h.1, hR _ h.2⟩

theorem behind_loopHead {ret last x : U64} (h : last ≤ x) : (loopHead ret last).Behind x := by
  unfold loopHead
  split_ifs with hlt
  · exact ⟨BitVec.le_of_lt hlt, h⟩
  · exact ⟨BitVec.not_lt.mp hlt, h⟩

theorem behind_loopTest {ret last x : U64} (h : last ≤ x) : (loopTest ret last).Behind x := by
  unfold loopTest
  split_ifs with hne
  · exact behind_loopHead h
  · rw [not_ne_iff] at hne
    exact ⟨BitVec.le_refl _, hne ▸ h⟩

theorem beyond_loopHead {ret last x : U64} (h : x ≤ last) : (loopHead ret last).Beyond x := by
  unfold loopHead
  split_ifs <;> exact h

theorem beyond_loopTest {ret last x : U64} (h : x ≤ last) : (loopTest ret last).Beyond x := by
  unfold loopTest
  split_ifs with hne
  · exact beyond_loopHead h
  · rw [not_ne_iff] at hne
    exact hne ▸ h

theorem within_loopHead {R : U64 → Prop} {ret last : U64} (hr : R ret) (hl : R last) :
    (loopHead ret last).Within R := by
  unfold loopHead
  split_ifs <;> exact ⟨hr, hl⟩

theorem within_loopTest {R : U64 → Prop} {ret last : U64} (hr : R ret) (hl : R last) :
    (loopTest ret last).Within R := by
  unfold loopTest
  split_ifs
  · exact within_loopHead hr hl
  · exact ⟨hr, hr⟩

theorem onPath_loopHead (ret last : U64) (validFlags : U8) :
    (loopHead ret last).OnPath .slow validFlags := by
  unfold loopHead
  split_ifs <;> rfl

theorem onPath_loopTest (ret last : U64) (validFlags : U8) :
    (loopTest ret last).OnPath .slow validFlags := by
  unfold loopTest
  split_ifs
  · exact onPath_loopHead ret last validFlags
  · rfl

end ReadCall

/-- Everything one access can do; the proofs below case on this and on nothing else. -/
theorem pvclockClocksourceRead_cases {g g' : ClockStatics} {c c' : ReadCall} {e : ReadEvent}
    (h : pvclockClocksourceRead g c e = some (g', c')) :
    (∃ x, c = .retry ∧ e = .sample x ∧ g' = g ∧ c' = .flagTest x.ret x.flags) ∨
    (∃ ret flags, c = .flagTest ret flags ∧ e = .proceed ∧ g' = g ∧
      stablePath g.validFlags flags = true ∧ c' = .returned .fast ret ret) ∨
    (∃ ret flags, c = .flagTest ret flags ∧ e = .proceed ∧ g' = g ∧
      stablePath g.validFlags flags = false ∧ c' = .lastLoad ret) ∨
    (∃ ret, c = .lastLoad ret ∧ e = .proceed ∧ g' = g ∧ c' = loopHead ret g.lastValue) ∨
    (∃ ret last, c = .swap ret last ∧ e = .proceed ∧ g' = { g with
        lastValue := if g.lastValue = last then ret else g.lastValue } ∧
      c' = loopTest ret g.lastValue) := by
  cases c with
  | retry => cases e <;> simp_all [pvclockClocksourceRead]
  | flagTest ret flags =>
    cases e with
    | sample x => simp [pvclockClocksourceRead] at h
    | proceed => cases hp : stablePath g.validFlags flags <;> simp_all [pvclockClocksourceRead]
  | lastLoad ret =>
    cases e with
    | sample x => simp [pvclockClocksourceRead] at h
    | proceed =>
      cases h
      simp
  | swap ret last => cases e <;> simp_all [pvclockClocksourceRead, atomic64Cmpxchg]
  | returned path ret value => cases e <;> simp [pvclockClocksourceRead] at h

/-- One access raises `last_value` or leaves it, and keeps what the call knows. -/
theorem ReadCall.behind_step {g g' : ClockStatics} {c c' : ReadCall} {e : ReadEvent}
    (hc : c.Behind g.lastValue) (h : pvclockClocksourceRead g c e = some (g', c')) :
    g.lastValue ≤ g'.lastValue ∧ c'.Behind g'.lastValue := by
  rcases pvclockClocksourceRead_cases h with ⟨x, rfl, rfl, rfl, rfl⟩ |
    ⟨ret, flags, rfl, rfl, rfl, -, rfl⟩ | ⟨ret, flags, rfl, rfl, rfl, -, rfl⟩ |
    ⟨ret, rfl, rfl, rfl, rfl⟩ | ⟨ret, last, rfl, rfl, rfl, rfl⟩
  · exact ⟨BitVec.le_refl _, trivial⟩
  · exact ⟨BitVec.le_refl _, rfl⟩
  · exact ⟨BitVec.le_refl _, trivial⟩
  · exact ⟨BitVec.le_refl _, behind_loopHead (BitVec.le_refl _)⟩
  · -- a swap that succeeds finds `last`, and `last ≤ ret` since the loop head passed
    have hle : g.lastValue ≤ if g.lastValue = last then ret else g.lastValue := by
      split_ifs with he
      · exact he ▸ hc.1
      · exact BitVec.le_refl _
    exact ⟨hle, behind_loopTest hle⟩

theorem ReadCall.beyond_step {g g' : ClockStatics} {c c' : ReadCall} {e : ReadEvent} {x : U64}
    (hx : x ≤ g.lastValue) (hc : c.Beyond x)
    (h : pvclockClocksourceRead g c e = some (g', c')) : c'.Beyond x := by
  rcases pvclockClocksourceRead_cases h with ⟨x, rfl, rfl, rfl, rfl⟩ |
    ⟨ret, flags, rfl, rfl, rfl, -, rfl⟩ | ⟨ret, flags, rfl, rfl, rfl, -, rfl⟩ |
    ⟨ret, rfl, rfl, rfl, rfl⟩ | ⟨ret, last, rfl, rfl, rfl, rfl⟩
  · trivial
  · trivial
  · trivial
  · exact beyond_loopHead hx
  · exact beyond_loopTest hx

theorem ReadCall.within_step {R : U64 → Prop} {g g' : ClockStatics} {c c' : ReadCall}
    {e : ReadEvent} (he : ∀ x, e = .sample x → R x.ret) (hg : R g.lastValue) (hc : c.Within R)
    (h : pvclockClocksourceRead g c e = some (g', c')) : R g'.lastValue ∧ c'.Within R := by
  rcases pvclockClocksourceRead_cases h with ⟨x, rfl, rfl, rfl, rfl⟩ |
    ⟨ret, flags, rfl, rfl, rfl, -, rfl⟩ | ⟨ret, flags, rfl, rfl, rfl, -, rfl⟩ |
    ⟨ret, rfl, rfl, rfl, rfl⟩ | ⟨ret, last, rfl, rfl, rfl, rfl⟩
  · exact ⟨hg, he x rfl⟩
  · exact ⟨hg, hc, hc⟩
  · exact ⟨hg, hc⟩
  · exact ⟨hg, within_loopHead hc hg⟩
  · refine ⟨?_, within_loopTest hc.1 hg⟩
    dsimp only
    split_ifs
    · exact hc.1
    · exact hg

theorem ReadCall.onPath_step {p : ReadPath} {g g' : ClockStatics} {c c' : ReadCall}
    {e : ReadEvent} (he : ∀ x, e = .sample x → pathOf g.validFlags x.flags = p)
    (hc : c.OnPath p g.validFlags) (h : pvclockClocksourceRead g c e = some (g', c')) :
    c'.OnPath p g.validFlags := by
  rcases pvclockClocksourceRead_cases h with ⟨x, rfl, rfl, rfl, rfl⟩ |
    ⟨ret, flags, rfl, rfl, rfl, hflags, rfl⟩ | ⟨ret, flags, rfl, rfl, rfl, hflags, rfl⟩ |
    ⟨ret, rfl, rfl, rfl, rfl⟩ | ⟨ret, last, rfl, rfl, rfl, rfl⟩
  · exact he x rfl
  · simpa [OnPath, pathOf, hflags] using hc
  · simpa [OnPath, pathOf, hflags, eq_comm] using hc
  · cases (hc : p = .slow)
    exact onPath_loopHead _ _ _
  · cases (hc : p = .slow)
    exact onPath_loopTest _ _ _

@[simp] theorem ReadCall.raw?_loopHead (ret last : U64) : (loopHead ret last).raw? = some ret := by
  unfold loopHead
  split_ifs <;> rfl

@[simp] theorem ReadCall.raw?_loopTest (ret last : U64) : (loopTest ret last).raw? = some ret := by
  unfold loopTest
  split_ifs
  · exact raw?_loopHead ret last
  · rfl

/-- A call samples once: it takes its raw value from the sample and keeps it. -/
theorem ReadCall.raw?_step {g g' : ClockStatics} {c c' : ReadCall} {e : ReadEvent}
    (h : pvclockClocksourceRead g c e = some (g', c')) :
    (∃ x, c.raw? = none ∧ e = .sample x ∧ c'.raw? = some x.ret) ∨
      e = .proceed ∧ c'.raw? = c.raw? := by
  rcases pvclockClocksourceRead_cases h with ⟨x, rfl, rfl, rfl, rfl⟩ |
    ⟨ret, flags, rfl, rfl, rfl, -, rfl⟩ | ⟨ret, flags, rfl, rfl, rfl, -, rfl⟩ |
    ⟨ret, rfl, rfl, rfl, rfl⟩ | ⟨ret, last, rfl, rfl, rfl, rfl⟩
  · exact .inl ⟨x, rfl, rfl, rfl⟩
  · exact .inr ⟨rfl, rfl⟩
  · exact .inr ⟨rfl, rfl⟩
  · exact .inr ⟨rfl, raw?_loopHead ret _⟩
  · exact .inr ⟨rfl, raw?_loopTest ret _⟩

theorem pvclockClocksourceRead_validFlags {g g' : ClockStatics} {c c' : ReadCall} {e : ReadEvent}
    (h : pvclockClocksourceRead g c e = some (g', c')) : g'.validFlags = g.validFlags := by
  rcases pvclockClocksourceRead_cases h with ⟨x, rfl, rfl, rfl, rfl⟩ |
    ⟨ret, flags, rfl, rfl, rfl, -, rfl⟩ | ⟨ret, flags, rfl, rfl, rfl, -, rfl⟩ |
    ⟨ret, rfl, rfl, rfl, rfl⟩ | ⟨ret, last, rfl, rfl, rfl, rfl⟩ <;> rfl

end PcmTest.Kvmclock
