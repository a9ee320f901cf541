import PcmTest.Kvmclock.Clocksource

/-!
# Many readers of one clock

Any number of calls of `pvclock_clocksource_read` run interleaved, while
`pvclock_set_flags` may be called at any point. A call is a thread of its own:
that the calls of one CPU follow each other only removes interleavings.
-/

namespace PcmTest.Kvmclock

open Theory

variable {ι : Type*} [DecidableEq ι]

/-- Calls of `pvclock_clocksource_read` as threads; the environment sets the flags. -/
def callers (ι : Type*) : Threads ι ClockStatics ReadCall ReadEvent U8 where
  thread _ e g c := pvclockClocksourceRead g c e
  env flags g := some (pvclockSetFlags flags g)

abbrev CallersState (ι : Type*) := Threads.State ι ClockStatics ReadCall
abbrev CallersAction (ι : Type*) := Threads.Action ι ReadEvent U8

def callersStart (ι : Type*) (g : ClockStatics) : CallersState ι := ⟨g, fun _ => .retry⟩

/-- Every call stays behind `last_value`, whatever the other calls do. -/
theorem callers_behind (ι : Type*) [DecidableEq ι] (x : U64) :
    (callers ι).Inductive (fun _ _ => True) (fun g => x ≤ g.lastValue)
      (fun _ g c => c.Behind g.lastValue) where
  own _ hI hP h := by
    obtain ⟨hle, hc⟩ := ReadCall.behind_step hP h
    exact ⟨BitVec.le_trans hI hle, hc⟩
  other _ _ _ hP hQ h := ReadCall.behind_mono (ReadCall.behind_step hP h).1 hQ
  env hI h := by
    cases h
    exact ⟨hI, fun _ _ hP => hP⟩

/-- From a state with `last_value = x` on, a call that has not loaded yet will see at least `x`. -/
theorem callers_beyond (ι : Type*) [DecidableEq ι] (x : U64) (b : ι) :
    (callers ι).Inductive (fun _ _ => True) (fun g => x ≤ g.lastValue)
      (fun i g c => c.Behind g.lastValue ∧ (i = b → c.Beyond x)) where
  own _ hI hP h := by
    obtain ⟨hle, hc⟩ := ReadCall.behind_step hP.1 h
    exact ⟨BitVec.le_trans hI hle, hc, fun hi => ReadCall.beyond_step hI (hP.2 hi) h⟩
  other _ _ _ hP hQ h := ⟨ReadCall.behind_mono (ReadCall.behind_step hP.1 h).1 hQ.1, hQ.2⟩
  env hI h := by
    cases h
    exact ⟨hI, fun _ _ hP => hP⟩

/-- If the samples of a run lie in `R`, so does every word that the calls hold. -/
theorem callers_within (ι : Type*) [DecidableEq ι] (R : U64 → Prop) :
    (callers ι).Inductive (fun _ e => ∀ x, e = .sample x → R x.ret) (fun g => R g.lastValue)
      (fun _ _ c => c.Within R) where
  own hA hI hP h := ReadCall.within_step hA hI hP h
  other _ _ _ _ hQ _ := hQ
  env hI h := by
    cases h
    exact ⟨hI, fun _ _ hP => hP⟩

theorem callers_reachable_behind {g : ClockStatics} {tr : List (CallersAction ι)}
    {s : CallersState ι} (h : (callers ι).machine.run (callersStart ι g) tr = some s) :
    g.lastValue ≤ s.shared.lastValue ∧ ∀ i, (s.locals i).Behind s.shared.lastValue :=
  (callers_behind ι g.lastValue).run (Threads.allowed_true tr) h
    ⟨BitVec.le_refl _, fun _ => trivial⟩

/-- A sampled value is never forgotten. -/
theorem callers_raw_kept {s t : CallersState ι} {tr : List (CallersAction ι)} {i : ι} {r : U64}
    (hr : (s.locals i).raw? = some r) (h : (callers ι).machine.run s tr = some t) :
    (t.locals i).raw? = some r := by
  have hkept : (callers ι).Inductive (fun _ _ => True) (fun _ => True)
      (fun j _ c => j = i → c.raw? = some r) := by
    refine ⟨fun _ _ hP hc => ⟨trivial, fun hj => ?_⟩, fun _ _ _ _ hQ _ => hQ, fun _ h => ?_⟩
    · rcases ReadCall.raw?_step hc with ⟨x, hnone, -⟩ | ⟨-, he⟩
      · simp [hP hj] at hnone
      · rw [he, hP hj]
    · cases h
      exact ⟨trivial, fun _ _ hP => hP⟩
  exact (hkept.run (Threads.allowed_true tr) h ⟨trivial, fun j hj => hj ▸ hr⟩).2 i rfl

/-- Every sample of a run is the raw value of the call that took it. -/
theorem callers_sample_kept {s t : CallersState ι} {tr : List (CallersAction ι)} {i : ι}
    {x : Sample} (hx : .thread i (.sample x) ∈ tr)
    (h : (callers ι).machine.run s tr = some t) : (t.locals i).raw? = some x.ret := by
  obtain ⟨_, _, u, v, -, hstep, hrun⟩ := Machine.run_of_mem hx h
  obtain ⟨g, c, hc, rfl⟩ := Threads.thread_step hstep
  refine callers_raw_kept ?_ hrun
  rcases ReadCall.raw?_step hc with ⟨y, -, he, hy⟩ | ⟨he, -⟩
  · cases he
    simpa using hy
  · cases he

/-- The slow path over every interleaving: `last_value` never decreases; a slow read
returns at least its sample, and its sample, another call's sample or the initial
`last_value`; and a slow read that loads after another one has returned does not
fall behind it. -/
theorem slow_reads_monotone {g : ClockStatics} {tr₁ tr₂ : List (CallersAction ι)}
    {s t : CallersState ι} (h₁ : (callers ι).machine.run (callersStart ι g) tr₁ = some s)
    (h₂ : (callers ι).machine.run s tr₂ = some t) :
    s.shared.lastValue ≤ t.shared.lastValue ∧
    (∀ i ret v, t.locals i = .returned .slow ret v → ret ≤ v ∧
      (v = ret ∨ (∃ j, j ≠ i ∧ (t.locals j).raw? = some v) ∨ v = g.lastValue)) ∧
    (∀ a b retA vA retB vB, s.locals a = .returned .slow retA vA → (s.locals b).BeforeLoad →
      t.locals b = .returned .slow retB vB → vA ≤ vB) := by
  have hs := callers_reachable_behind h₁
  have ht := (callers_behind ι s.shared.lastValue).run (Threads.allowed_true tr₂) h₂
    ⟨BitVec.le_refl _, hs.2⟩
  refine ⟨ht.1, fun i ret v hi => ?_, fun a b retA vA retB vB ha hb hb' => ?_⟩
  · have hbehind := ht.2 i
    rw [hi] at hbehind
    have hrun := Machine.run_trans h₁ h₂
    let R : U64 → Prop := fun w => w = g.lastValue ∨ ∃ j, (t.locals j).raw? = some w
    have hsamples : ∀ x ∈ tr₁ ++ tr₂,
        Threads.Allowed (fun _ e => ∀ y, e = .sample y → R y.ret) x := by
      intro x hx
      cases x with
      | thread j e =>
        rintro y rfl
        exact .inr ⟨j, callers_sample_kept hx hrun⟩
      | env flags => trivial
    have hwithin := ((callers_within ι R).run hsamples hrun ⟨.inl rfl, fun _ => trivial⟩).2 i
    rw [hi] at hwithin
    refine ⟨hbehind.1, ?_⟩
    rcases hwithin.2 with hv | ⟨j, hj⟩
    · exact .inr (.inr hv)
    · by_cases hji : j = i
      · subst hji
        rw [hi] at hj
        exact .inl (Option.some.inj hj).symm
      · exact .inr (.inl ⟨j, hji, hj⟩)
  · have hvA := hs.2 a
    rw [ha] at hvA
    have hbeyond : (s.locals b).Beyond s.shared.lastValue := by
      cases hc : s.locals b <;> simp_all [ReadCall.BeforeLoad, ReadCall.Beyond]
    have hend := ((callers_beyond ι s.shared.lastValue b).run (Threads.allowed_true tr₂) h₂
      ⟨BitVec.le_refl _, fun i => ⟨hs.2 i, fun hi => hi ▸ hbeyond⟩⟩).2 b
    rw [hb'] at hend
    exact BitVec.le_trans hvA.2 (hend.2 rfl)

def callTrace (i : ι) (x : Sample) (n : ℕ) : List (CallersAction ι) :=
  .thread i (.sample x) :: List.replicate n (.thread i .proceed)

omit [DecidableEq ι] in
theorem mem_callTrace {i j : ι} {e : ReadEvent} {x : Sample} {n : ℕ}
    (h : .thread i e ∈ callTrace j x n) : i = j := by
  rcases List.mem_cons.mp h with h | h
  · cases h
    rfl
  · cases List.eq_of_mem_replicate h
    rfl

/-- A read of 7 publishes it, and a later read of 3 is answered with 7. -/
theorem slow_reads_monotone_inverted : ∃ s t : CallersState ℕ,
    (callers ℕ).machine.run (callersStart ℕ ⟨0, 0⟩) (callTrace 0 ⟨7, 0⟩ 4) = some s ∧
    (callers ℕ).machine.run s (callTrace 1 ⟨3, 0⟩ 2) = some t ∧
    t.locals 1 = .returned .slow 3 7 ∧ (3 : U64) ≤ 7 := by
  obtain ⟨t, ht, hread⟩ := Option.map_eq_some_iff.mp
    (show ((callers ℕ).machine.run (callersStart ℕ ⟨0, 0⟩)
      (callTrace 0 ⟨7, 0⟩ 4 ++ callTrace 1 ⟨3, 0⟩ 2)).map (fun t => t.locals 1) =
        some (.returned .slow 3 7) by decide)
  obtain ⟨s, hs, ht⟩ := Machine.run_split ht
  exact ⟨s, t, hs, ht, hread, ((slow_reads_monotone hs ht).2.1 1 3 7 hread).1⟩

/-- The raw readings of a run, in the order in which they are taken. -/
def rawReadings : List (CallersAction ι) → List U64
  | [] => []
  | .thread _ (.sample x) :: tr => x.ret :: rawReadings tr
  | _ :: tr => rawReadings tr

/-- The invariant rule for runs whose raw readings never decrease: `P m` holds with `m`
the latest reading, and a new reading moves `m` up to itself. Only calls of `A` act. -/
theorem callers_run_ordered (A : ι → Prop) (P : U64 → CallersState ι → Prop)
    (hsample : ∀ m s i x t, A i → m ≤ x.ret → P m s →
      (callers ι).machine.step s (.thread i (.sample x)) = some t → P x.ret t)
    (hproceed : ∀ m s i t, A i → P m s →
      (callers ι).machine.step s (.thread i .proceed) = some t → P m t)
    (henv : ∀ m s flags t, P m s → (callers ι).machine.step s (.env flags) = some t → P m t)
    {tr rest : List (CallersAction ι)} {m : U64} {s t : CallersState ι}
    (hA : ∀ i e, .thread i e ∈ tr → A i)
    (hord : (m :: rawReadings (tr ++ rest)).Pairwise (· ≤ ·)) (hs : P m s)
    (hrun : (callers ι).machine.run s tr = some t) :
    ∃ m', (m' :: rawReadings rest).Pairwise (· ≤ ·) ∧ P m' t := by
  induction tr generalizing s m with
  | nil =>
    cases hrun
    exact ⟨m, hord, hs⟩
  | cons a tr ih =>
    obtain ⟨u, hu, hrest⟩ := (callers ι).machine.run_cons_some hrun
    have hA' : ∀ i e, .thread i e ∈ tr → A i := fun i e h => hA i e (List.mem_cons_of_mem _ h)
    cases a with
    | thread i e =>
      have hi : A i := hA i e (List.mem_cons_self ..)
      cases e with
      | sample x =>
        have hm : m ≤ x.ret := List.rel_of_pairwise_cons hord (List.mem_cons_self ..)
        exact ih hA' (List.Pairwise.of_cons hord) (hsample m s i x u hi hm hs hu) hrest
      | proceed => exact ih hA' hord (hproceed m s i u hi hs hu) hrest
    | env flags => exact ih hA' hord (henv m s flags u hs hu) hrest

/-- `last_value` and every word held by a call are readings already taken. -/
def CallersBounded (m : U64) (s : CallersState ι) : Prop :=
  Threads.Holds (fun g => g.lastValue ≤ m) (fun _ _ c => c.Within (· ≤ m)) s

omit [DecidableEq ι] in
theorem callersBounded_mono {m m' : U64} {s : CallersState ι} (hm : m ≤ m')
    (h : CallersBounded m s) : CallersBounded m' s := by
  refine ⟨BitVec.le_trans h.1 hm, fun i => ?_⟩
  exact ReadCall.within_mono (fun w hw => BitVec.le_trans hw hm) (h.2 i)

theorem callersBounded_step {m : U64} {s t : CallersState ι} {x : CallersAction ι}
    (hx : ∀ i y, x = .thread i (.sample y) → y.ret ≤ m) (h : CallersBounded m s)
    (hstep : (callers ι).machine.step s x = some t) : CallersBounded m t := by
  refine (callers_within ι (· ≤ m)).step ?_ h hstep
  cases x with
  | thread i e =>
    rintro y rfl
    exact hx i y rfl
  | env flags => trivial

theorem callersBounded_sample {m : U64} {s t : CallersState ι} {i : ι} {x : Sample}
    (hm : m ≤ x.ret) (h : CallersBounded m s)
    (hstep : (callers ι).machine.step s (.thread i (.sample x)) = some t) :
    CallersBounded x.ret t := by
  refine callersBounded_step (fun j y he => ?_) (callersBounded_mono hm h) hstep
  cases he
  exact BitVec.le_refl _

/-- With an ordered clock, the state is bounded by the latest reading. -/
theorem callers_bounded {tr rest : List (CallersAction ι)} {m : U64} {s t : CallersState ι}
    (hord : (m :: rawReadings (tr ++ rest)).Pairwise (· ≤ ·)) (hs : CallersBounded m s)
    (hrun : (callers ι).machine.run s tr = some t) :
    ∃ m', (m' :: rawReadings rest).Pairwise (· ≤ ·) ∧ CallersBounded m' t := by
  refine callers_run_ordered (fun _ => True) CallersBounded ?_ ?_ ?_ (by simp) hord hs hrun
  · exact fun m s i x t _ hm hs hstep => callersBounded_sample hm hs hstep
  · exact fun m s i t _ hs hstep => callersBounded_step (by simp) hs hstep
  · exact fun m s flags t hs hstep => callersBounded_step (by simp) hs hstep

/-- A call that samples from now on gets at least the latest reading. -/
theorem callers_raw_ge {tr : List (CallersAction ι)} {m r : U64} {s t : CallersState ι} {b : ι}
    (hord : (m :: rawReadings tr).Pairwise (· ≤ ·)) (hb : s.locals b = .retry)
    (hrun : (callers ι).machine.run s tr = some t) (hr : (t.locals b).raw? = some r) : m ≤ r := by
  let P : U64 → CallersState ι → Prop := fun m' u =>
    m ≤ m' ∧ ∀ w, (u.locals b).raw? = some w → m ≤ w
  have hkeep : ∀ m' u i e v, P m' u → (∀ x, e = .sample x → m ≤ x.ret) →
      (callers ι).machine.step u (.thread i e) = some v →
      ∀ w, (v.locals b).raw? = some w → m ≤ w := by
    intro m' u i e v hu hm hstep w hw
    obtain ⟨g, c, hc, rfl⟩ := Threads.thread_step hstep
    dsimp only at hw
    by_cases hbi : b = i
    · subst hbi
      rw [Function.update_self] at hw
      rcases ReadCall.raw?_step hc with ⟨x, -, rfl, hx⟩ | ⟨-, he⟩
      · rw [hx] at hw
        exact Option.some.inj hw ▸ hm x rfl
      · exact hu.2 w (he ▸ hw)
    · rw [Function.update_of_ne hbi] at hw
      exact hu.2 w hw
  have hend : ∃ m', (m' :: rawReadings ([] : List (CallersAction ι))).Pairwise (· ≤ ·) ∧
      P m' t := by
    refine callers_run_ordered (fun _ => True) P ?_ ?_ ?_ (by simp) (by simpa using hord)
      ⟨BitVec.le_refl _, by simp [hb, ReadCall.raw?]⟩ hrun
    · intro m' u i x v _ hm hu hstep
      have hx : m ≤ x.ret := BitVec.le_trans hu.1 hm
      exact ⟨hx, hkeep m' u i _ v hu (fun y hy => by cases hy; exact hx) hstep⟩
    · exact fun m' u i v _ hu hstep => ⟨hu.1, hkeep m' u i _ v hu (by simp) hstep⟩
    · intro m' u flags v hu hstep
      obtain ⟨g, -, rfl⟩ := Threads.env_step hstep
      exact hu
  obtain ⟨m', -, hP⟩ := hend
  exact hP.2 r hr

/-- A call that runs alone over a `last_value` not above its sample: it swaps its own
sample in and finds it there, so it returns it on either path. -/
def Alone (lastValue : U64) : ReadCall → Prop
  | .retry => True
  | .flagTest ret _ | .lastLoad ret => lastValue ≤ ret
  | .swap ret last => last ≤ ret ∧ (lastValue = last ∨ lastValue = ret)
  | .returned _ ret value => value = ret

theorem alone_step {g g' : ClockStatics} {c c' : ReadCall} {e : ReadEvent}
    (he : ∀ x, e = .sample x → g.lastValue ≤ x.ret) (hc : Alone g.lastValue c)
    (h : pvclockClocksourceRead g c e = some (g', c')) : Alone g'.lastValue c' := by
  rcases pvclockClocksourceRead_cases h with ⟨x, rfl, rfl, rfl, rfl⟩ |
    ⟨ret, flags, rfl, rfl, rfl, -, rfl⟩ | ⟨ret, flags, rfl, rfl, rfl, -, rfl⟩ |
    ⟨ret, rfl, rfl, rfl, rfl⟩ | ⟨ret, last, rfl, rfl, rfl, rfl⟩
  · exact he x rfl
  · rfl
  · exact hc
  · have hle : ¬ ret < g'.lastValue := BitVec.not_lt.mpr hc
    rw [loopHead, if_neg hle]
    exact ⟨hc, .inl rfl⟩
  · obtain ⟨hle, hmem⟩ := hc
    by_cases hret : g.lastValue = ret
    · rw [loopTest, if_neg (not_ne_iff.mpr hret)]
      rfl
    · -- the swap succeeds; the loop goes round once more and finds `ret`
      have hlast : g.lastValue = last := hmem.resolve_right hret
      rw [loopTest, if_pos hret, hlast, loopHead, if_neg (BitVec.not_lt.mpr hle)]
      exact ⟨hle, .inr (if_pos rfl)⟩

theorem callers_alone {tr : List (CallersAction ι)} {m : U64} {s t : CallersState ι} {c : ι}
    (hord : (m :: rawReadings tr).Pairwise (· ≤ ·)) (hs : CallersBounded m s)
    (hc : s.locals c = .retry) (hown : ∀ i e, .thread i e ∈ tr → i = c)
    (hrun : (callers ι).machine.run s tr = some t) : Alone t.shared.lastValue (t.locals c) := by
  let P : U64 → CallersState ι → Prop := fun m' u =>
    CallersBounded m' u ∧ Alone u.shared.lastValue (u.locals c)
  have hkeep : ∀ m' u e v, P m' u → (∀ x, e = .sample x → m' ≤ x.ret) →
      (callers ι).machine.step u (.thread c e) = some v →
      Alone v.shared.lastValue (v.locals c) := by
    intro m' u e v hu he hstep
    obtain ⟨g, w, hw, rfl⟩ := Threads.thread_step hstep
    dsimp only
    rw [Function.update_self]
    exact alone_step (fun x hx => BitVec.le_trans hu.1.1 (he x hx)) hu.2 hw
  have hstart : P m s := ⟨hs, by rw [hc]; trivial⟩
  have hend : ∃ m', (m' :: rawReadings ([] : List (CallersAction ι))).Pairwise (· ≤ ·) ∧
      P m' t := by
    refine callers_run_ordered (· = c) P ?_ ?_ ?_ hown (by simpa using hord) hstart hrun
    · rintro m' u i x v rfl hm hu hstep
      exact ⟨callersBounded_sample hm hu.1 hstep,
        hkeep m' u _ v hu (fun y hy => by cases hy; exact hm) hstep⟩
    · rintro m' u i v rfl hu hstep
      exact ⟨callersBounded_step (by simp) hu.1 hstep, hkeep m' u _ v hu (by simp) hstep⟩
    · intro m' u flags v hu hstep
      refine ⟨callersBounded_step (by simp) hu.1 hstep, ?_⟩
      obtain ⟨g, hg, rfl⟩ := Threads.env_step hstep
      cases hg
      exact hu.2
  obtain ⟨m', -, hP⟩ := hend
  exact hP.2

/-- Fast and slow reads mixed over a clock whose raw readings never decrease, starting
with `last_value` not above the first: a call that samples after another has returned
returns no less, and a call during which no other call takes a step, as one that
overlaps no other call, returns its sample on either path. -/
theorem ordered_reads_agree {g : ClockStatics} {tr₁ tr₂ : List (CallersAction ι)}
    {s t : CallersState ι}
    (hord : (g.lastValue :: rawReadings (tr₁ ++ tr₂)).Pairwise (· ≤ ·))
    (h₁ : (callers ι).machine.run (callersStart ι g) tr₁ = some s)
    (h₂ : (callers ι).machine.run s tr₂ = some t) :
    (∀ a b pathA retA vA pathB retB vB, s.locals a = .returned pathA retA vA →
      s.locals b = .retry → t.locals b = .returned pathB retB vB → vA ≤ vB) ∧
    (∀ c path ret v, s.locals c = .retry → (∀ i e, .thread i e ∈ tr₂ → i = c) →
      t.locals c = .returned path ret v → v = ret) := by
  have hstart : CallersBounded g.lastValue (callersStart ι g) :=
    ⟨BitVec.le_refl _, fun _ => trivial⟩
  obtain ⟨m, hm, hs⟩ := callers_bounded hord hstart h₁
  refine ⟨fun a b pathA retA vA pathB retB vB ha hb hb' => ?_, fun c path ret v hc hown hc' => ?_⟩
  · have hvA : vA ≤ m := by
      have hwithin := hs.2 a
      rw [ha] at hwithin
      exact hwithin.2
    have hraw : m ≤ retB := callers_raw_ge hm hb h₂ (by rw [hb']; rfl)
    have hvB : retB ≤ vB := by
      have hbehind := (callers_reachable_behind (Machine.run_trans h₁ h₂)).2 b
      rw [hb'] at hbehind
      cases pathB with
      | fast => exact hbehind ▸ BitVec.le_refl _
      | slow => exact hbehind.1
    exact BitVec.le_trans hvA (BitVec.le_trans hraw hvB)
  · have halone := callers_alone hm hs hc hown h₂
    rw [hc'] at halone
    exact halone

/-- A slow read of 3 followed by a fast read of 5. -/
theorem ordered_reads_agree_mixed : ∃ s t : CallersState ℕ,
    (callers ℕ).machine.run (callersStart ℕ ⟨1, 2⟩) (callTrace 0 ⟨3, 0⟩ 4) = some s ∧
    (callers ℕ).machine.run s (callTrace 1 ⟨5, 1⟩ 1) = some t ∧
    t.locals 0 = .returned .slow 3 3 ∧ t.locals 1 = .returned .fast 5 5 ∧ (5 : U64) = 5 := by
  obtain ⟨t, ht, hread⟩ := Option.map_eq_some_iff.mp
    (show ((callers ℕ).machine.run (callersStart ℕ ⟨1, 2⟩)
      (callTrace 0 ⟨3, 0⟩ 4 ++ callTrace 1 ⟨5, 1⟩ 1)).map (fun t => (t.locals 0, t.locals 1)) =
        some (.returned .slow 3 3, .returned .fast 5 5) by decide)
  obtain ⟨h₀, h₁⟩ := Prod.mk.inj hread
  obtain ⟨s, hs, ht⟩ := Machine.run_split ht
  have hidle : s.locals 1 = .retry := Machine.run_observed (fun s => s.locals 1) hs (by decide)
  exact ⟨s, t, hs, ht, h₀, h₁,
    (ordered_reads_agree (by decide) hs ht).2 1 .fast 5 5 hidle (fun _ _ h => mem_callTrace h) h₁⟩

end PcmTest.Kvmclock
