import PcmTest.Driver.Ioctl

/-!
# Which test bodies a call runs

The test bodies of a call are those that control reaches in the switch. In the
focus_test driver every arm breaks, so a call runs what it asks for; in the
pcm-unit driver two arms fall into the next ones, and exactly the calls that
enter there run more. The checks before the switch look at fields of the word, so
they let through words that are no code.
-/

namespace PcmTest.Driver

open Theory

section Requests

variable {T : Type}

/-- Over a sequence of calls the test bodies executed are the ones whose codes were asked for. -/
def RunsRequested (ioctl : U32 → U64 → IoctlProg T ℤ) (requested : U32 → Option T)
    (calls : List IoctlCall) : Prop :=
  ∀ (tr : IoctlTrace T) (results : List ℤ), (ioctls ioctl calls).Runs tr results →
    testsRun tr = calls.filterMap fun call => requested call.cmd

/-- Every code of the switch passes the checks of the command word. -/
def CodesOk (maxNr : U32) (arms : List (SwitchArm T)) : Prop :=
  ∀ arm ∈ arms, FieldsOk maxNr arm.code ∧ iocDir arm.code = 0

theorem switchTests_eq_nil {cmd : U32} {arms : List (SwitchArm T)}
    (h : ∀ arm ∈ arms, arm.code ≠ cmd) : switchTests cmd arms = [] := by
  induction arms with
  | nil => rfl
  | cons arm arms ih =>
    rw [switchTests, if_neg fun he => h arm (by simp) he.symm]
    exact ih fun arm' harm => h arm' (by simp [harm])

/-- The test of `all` whose code is `cmd`. -/
def requestedIn (code : T → U32) (all : List T) (cmd : U32) : Option T :=
  all.find? fun t => cmd = code t

theorem code_of_requestedIn {code : T → U32} {all : List T} {cmd : U32} {t : T}
    (h : requestedIn code all cmd = some t) : cmd = code t := by
  rw [requestedIn] at h
  simpa using List.find?_some h

theorem ne_code_of_requestedIn {code : T → U32} {all : List T} {cmd : U32}
    (hall : ∀ t, t ∈ all) (h : requestedIn code all cmd = none) (t : T) : cmd ≠ code t := by
  have hnone := List.find?_eq_none.mp h t (hall t)
  exact fun he => hnone (decide_eq_true he)

theorem switchTests_of_requestedIn {code : T → U32} {all : List T} {arms : List (SwitchArm T)}
    {cmd : U32} (hall : ∀ t, t ∈ all) (harms : ∀ arm ∈ arms, arm.code = code arm.test)
    (h : requestedIn code all cmd = none) : switchTests cmd arms = [] := by
  apply switchTests_eq_nil
  intro arm harm he
  exact ne_code_of_requestedIn hall h arm.test (he.symm.trans (harms arm harm))

/-- A call runs the tests that its switch reaches: one that is rejected matches no code. -/
theorem testsRun_of_callTrace {maxNr : U32} {arms : List (SwitchArm T)} {cmd : U32}
    {tr : IoctlTrace T} {r : ℤ} (hcodes : CodesOk maxNr arms)
    (h : CallTrace maxNr arms cmd tr r) : testsRun tr = switchTests cmd arms := by
  cases h with
  | rejected hpre herr hwhy =>
    rw [testsRun_accessOk hpre]
    symm
    apply switchTests_eq_nil
    rintro arm harm rfl
    exact hwhy (hcodes arm harm).1 (hcodes arm harm).2
  | accepted hpre hok => simp [testsRun_accessOk hpre]

theorem testsRun_rounds {maxNr : U32} {arms : List (SwitchArm T)} (hcodes : CodesOk maxNr arms)
    (rounds : List (Prog.Round IoctlCall (IoctlCmd T) IoctlCmd.Answer ℤ))
    (h : ∀ x ∈ rounds, CallTrace maxNr arms x.item.cmd x.trace x.result) :
    testsRun (rounds.flatMap Prog.Round.trace) =
      (rounds.map Prog.Round.item).flatMap fun call => switchTests call.cmd arms := by
  induction rounds with
  | nil => rfl
  | cons x rounds ih =>
    have hrest := ih fun y hy => h y (by simp [hy])
    have hx := testsRun_of_callTrace hcodes (h x (by simp))
    rw [List.flatMap_cons, testsRun_append, hrest, hx, List.map_cons, List.flatMap_cons]

/-- The test bodies of a sequence of calls depend on the command words alone. -/
theorem runsRequested_iff {maxNr : U32} {arms : List (SwitchArm T)} (hcodes : CodesOk maxNr arms)
    (requested : U32 → Option T) (calls : List IoctlCall) :
    RunsRequested (cdevIoctl maxNr arms) requested calls ↔
      (calls.flatMap fun call => switchTests call.cmd arms) =
        calls.filterMap fun call => requested call.cmd := by
  have hrun : ∀ tr results, (ioctls (cdevIoctl maxNr arms) calls).Runs tr results →
      testsRun tr = calls.flatMap fun call => switchTests call.cmd arms := by
    intro tr results h
    obtain ⟨rounds, rfl, -, rfl, hrounds⟩ := Prog.runs_forEach h
    exact testsRun_rounds hcodes rounds fun x hx => callTrace_of_runs (hrounds x hx)
  constructor
  · intro h
    obtain ⟨tr, results, hruns⟩ := Prog.exists_runs (ioctls (cdevIoctl maxNr arms) calls)
    rw [← hrun tr results hruns]
    exact h tr results hruns
  · intro h tr results hruns
    rw [hrun tr results hruns, h]

theorem length_filterMap_le {ι : Type} (f : ι → Option T) (extra : ι → List T) (is : List ι) :
    (is.filterMap f).length ≤ (is.flatMap fun i => (f i).toList ++ extra i).length := by
  induction is with
  | nil => exact Nat.le_refl _
  | cons i is ih =>
    rw [List.flatMap_cons]
    cases hf : f i with
    | none =>
      rw [List.filterMap_cons_none hf]
      simp only [List.length_append]
      omega
    | some t =>
      rw [List.filterMap_cons_some hf]
      simp only [List.length_append, List.length_cons, Option.toList_some]
      omega

/-- Lists that extend their parts agree as a whole only where every part is unextended. -/
theorem flatMap_eq_filterMap_iff {ι : Type} (f : ι → Option T) (extra : ι → List T)
    (is : List ι) :
    (is.flatMap fun i => (f i).toList ++ extra i) = is.filterMap f ↔ ∀ i ∈ is, extra i = [] := by
  induction is with
  | nil => simp
  | cons i is ih =>
    have hsplit : (i :: is).filterMap f = (f i).toList ++ is.filterMap f := by
      cases hf : f i with
      | none => exact List.filterMap_cons_none hf
      | some t => exact List.filterMap_cons_some hf
    rw [List.flatMap_cons, hsplit, List.append_assoc, List.append_cancel_left_eq]
    constructor
    · intro h j hj
      have hle := length_filterMap_le f extra is
      have hlength := congrArg List.length h
      rw [List.length_append] at hlength
      have hnil : extra i = [] := List.eq_nil_of_length_eq_zero (by omega)
      rw [hnil, List.nil_append] at h
      rcases List.mem_cons.mp hj with rfl | hj
      · exact hnil
      · exact ih.mp h j hj
    · intro h
      rw [h i (by simp), List.nil_append]
      exact ih.mpr fun j hj => h j (by simp [hj])

end Requests

namespace PcmUnit

/-- The ioctl code of each test body. -/
def code : Test → U32
  | .tsc => tscRw
  | .setjmp => setjmp
  | .msr => msrRw
  | .kvmClock => kvmclockTest
  | .ioapic => ioapicTest
  | .tscAdjust => tscAdjust

/-- The test whose code is `cmd`. -/
def requested : U32 → Option Test :=
  requestedIn code [.tsc, .setjmp, .msr, .kvmClock, .ioapic, .tscAdjust]

/-- What a call runs beyond the test that it asks for. -/
def fallsInto (cmd : U32) : List Test :=
  if cmd = kvmclockTest then [.ioapic, .tscAdjust]
  else if cmd = ioapicTest then [.tscAdjust]
  else []

theorem codesOk_arms : CodesOk pcmTestIocMaxnr arms := by
  unfold CodesOk FieldsOk
  decide

theorem fallsInto_eq_nil_iff (cmd : U32) :
    fallsInto cmd = [] ↔ cmd ≠ kvmclockTest ∧ cmd ≠ ioapicTest := by
  unfold fallsInto
  split_ifs with hkvm hio
  · simp [hkvm]
  · simp [hio]
  · simp [hkvm, hio]

theorem switchTests_arms (cmd : U32) :
    switchTests cmd arms = (requested cmd).toList ++ fallsInto cmd := by
  have hall : ∀ t, t ∈ [Test.tsc, .setjmp, .msr, .kvmClock, .ioapic, .tscAdjust] := by
    intro t
    cases t <;> decide
  cases hreq : requested cmd with
  | some t =>
    obtain rfl := code_of_requestedIn hreq
    cases t <;> rfl
  | none =>
    have hne := ne_code_of_requestedIn hall hreq
    rw [(fallsInto_eq_nil_iff cmd).mpr ⟨hne .kvmClock, hne .ioapic⟩]
    exact switchTests_of_requestedIn hall (by decide) hreq

/-- A call runs at most one test body, and only the one whose code it passes. -/
def RunsOnlyRequested (call : IoctlCall) : Prop :=
  ∀ (tr : IoctlTrace Test) (r : ℤ), (pcmCdevIoctl call.cmd call.arg).Runs tr r →
    (testsRun tr).length ≤ 1 ∧ ∀ t ∈ testsRun tr, code t = call.cmd

theorem runsOnlyRequested_of_ne {call : IoctlCall} (hkvm : call.cmd ≠ kvmclockTest)
    (hio : call.cmd ≠ ioapicTest) : RunsOnlyRequested call := by
  intro tr r h
  have htests : testsRun tr = (requested call.cmd).toList := by
    rw [testsRun_of_callTrace codesOk_arms (callTrace_of_runs h), switchTests_arms,
      (fallsInto_eq_nil_iff call.cmd).mpr ⟨hkvm, hio⟩, List.append_nil]
  rw [htests]
  constructor
  · cases requested call.cmd with
    | none => exact Nat.zero_le 1
    | some t => exact Nat.le_refl 1
  · intro t ht
    have hreq : requested call.cmd = some t := by simpa using ht
    exact (code_of_requestedIn hreq).symm

/-- The missing `break` statements tell exactly the calls that run more than they ask for. -/
theorem pcmCdevIoctl_requested_iff (calls : List IoctlCall) :
    ((∀ call ∈ calls, RunsOnlyRequested call) ∧ RunsRequested pcmCdevIoctl requested calls) ↔
      ∀ call ∈ calls, call.cmd ≠ kvmclockTest ∧ call.cmd ≠ ioapicTest := by
  have hsequence : RunsRequested pcmCdevIoctl requested calls ↔
      ∀ call ∈ calls, call.cmd ≠ kvmclockTest ∧ call.cmd ≠ ioapicTest := by
    have hiff := runsRequested_iff codesOk_arms requested calls
    simp only [switchTests_arms] at hiff
    refine hiff.trans ((flatMap_eq_filterMap_iff _ _ calls).trans ?_)
    exact forall₂_congr fun call _ => fallsInto_eq_nil_iff call.cmd
  constructor
  · exact fun h => hsequence.mp h.2
  · intro h
    refine ⟨fun call hcall => ?_, hsequence.mpr h⟩
    exact runsOnlyRequested_of_ne (h call hcall).1 (h call hcall).2

/-- `IOAPIC_TEST` also runs the TSC adjust test. -/
theorem pcmCdevIoctl_falls_through :
    ¬ ∀ calls, (∀ call ∈ calls, RunsOnlyRequested call) ∧
      RunsRequested pcmCdevIoctl requested calls := by
  intro h
  have heq := (runsRequested_iff codesOk_arms requested [⟨ioapicTest, 0⟩]).mp (h _).2
  exact absurd heq (by decide)

end PcmUnit

namespace FocusTest

/-- The ioctl code of each test body. -/
def code : Test → U32
  | .cpuid => cpuid
  | .rdpmc => rdpmc
  | .rdrand => rdrand
  | .rdseed => rdseed
  | .invd => invd
  | .rdtsc => rdtsc
  | .rdtscp => rdtscp
  | .pio => pio
  | .mmio => mmio
  | .icmp => icmp

/-- The test whose code is `cmd`. -/
def requested : U32 → Option Test :=
  requestedIn code [.cpuid, .rdpmc, .rdrand, .rdseed, .invd, .rdtsc, .rdtscp, .pio, .mmio, .icmp]

theorem codesOk_arms : CodesOk pcmTestIocMaxnr arms := by
  unfold CodesOk FieldsOk
  decide

theorem switchTests_arms (cmd : U32) : switchTests cmd arms = (requested cmd).toList := by
  have hall : ∀ t, t ∈ [Test.cpuid, .rdpmc, .rdrand, .rdseed, .invd, .rdtsc, .rdtscp, .pio, .mmio,
      .icmp] := by
    intro t
    cases t <;> decide
  cases hreq : requested cmd with
  | some t =>
    obtain rfl := code_of_requestedIn hreq
    cases t <;> rfl
  | none => exact switchTests_of_requestedIn hall (by decide) hreq

/-- In the sibling driver every arm breaks, and every sequence runs what it asks for. -/
theorem runsRequested_pcmCdevIoctl (calls : List IoctlCall) :
    RunsRequested pcmCdevIoctl requested calls := by
  apply (runsRequested_iff codesOk_arms requested calls).mpr
  simp only [switchTests_arms]
  exact (List.filterMap_eq_flatMap_toList _ _).symm

/-- What `access_ok` says of each range. -/
abbrev AccessOk := Verify → U64 → U32 → Bool

def kernel (ok : AccessOk) : (c : IoctlCmd Test) → Unit → c.Answer × Unit
  | .accessOk type addr size, u => (ok type addr size, u)
  | c, u => ((default : c.Answer), u)

/-- The access check that the direction bits ask for fails. -/
def refused (ok : AccessOk) (cmd : U32) (arg : U64) : Bool :=
  if iocDir cmd &&& iocRead ≠ 0 then !ok .write arg (iocSize cmd)
  else if iocDir cmd &&& iocWrite ≠ 0 then !ok .read arg (iocSize cmd)
  else false

/-- A call succeeds on exactly the defined codes and runs the test of its code; every other word
is an error that does nothing. -/
structure ServesCodes (cmd : U32) (tr : IoctlTrace Test) (r : ℤ) : Prop where
  success : r = 0 ↔ ∃ t, cmd = code t
  test : ∀ t, cmd = code t → testsRun tr = [t]
  other : (∀ t, cmd ≠ code t) → r < 0 ∧ hypercalls tr = [] ∧ testsRun tr = []

theorem exec_checkAccess (ok : AccessOk) (cmd : U32) (arg : U64) :
    ((checkAccess cmd arg).exec (kernel ok) ()).1 = refused ok cmd arg := by
  unfold checkAccess refused
  split_ifs <;> rfl

theorem exec_pcmCdevIoctl (ok : AccessOk) {cmd : U32} (arg : U64)
    (hfields : FieldsOk pcmTestIocMaxnr cmd) :
    ((pcmCdevIoctl cmd arg).exec (kernel ok) ()).1 =
      if refused ok cmd arg then -efault else 0 := by
  have htype : ¬ iocType cmd ≠ pcmTestIocMagic := not_not.mpr hfields.1
  rw [pcmCdevIoctl, cdevIoctl, if_neg htype, if_neg (BitVec.not_lt.mpr hfields.2), Prog.bind_eq,
    Prog.exec_bind, exec_checkAccess]
  cases refused ok cmd arg with
  | true => rfl
  | false => simp [Prog.exec_bind]

section Trace

variable {cmd : U32} {tr : IoctlTrace Test} {r : ℤ}

theorem result_of_code {t : Test} (h : CallTrace pcmTestIocMaxnr arms (code t) tr r) : r = 0 := by
  cases h with
  | rejected hpre herr hwhy =>
    obtain ⟨arm, harm, hcode⟩ : ∃ arm ∈ arms, arm.code = code t := by cases t <;> decide
    have hok := codesOk_arms arm harm
    rw [hcode] at hok
    exact absurd hok.2 (hwhy hok.1)
  | accepted hpre hok => rfl

theorem servesCodes_of_code {t : Test} (h : CallTrace pcmTestIocMaxnr arms (code t) tr r) :
    ServesCodes (code t) tr r := by
  have hr := result_of_code h
  constructor
  · exact ⟨fun _ => ⟨t, rfl⟩, fun _ => hr⟩
  · intro t' ht'
    rw [testsRun_of_callTrace codesOk_arms h, switchTests_arms, ht']
    cases t' <;> rfl
  · exact fun hne => absurd rfl (hne t)

theorem servesCodes_of_neg (h : CallTrace pcmTestIocMaxnr arms cmd tr r) (hneg : r < 0) :
    ServesCodes cmd tr r := by
  have hnone : ∀ t, cmd ≠ code t := by
    rintro t rfl
    exact absurd (result_of_code h) (Int.ne_of_lt hneg)
  constructor
  · exact ⟨fun hr => absurd hr (Int.ne_of_lt hneg), fun ⟨t, ht⟩ => absurd ht (hnone t)⟩
  · exact fun t ht => absurd ht (hnone t)
  · intro _
    cases h with
    | rejected hpre herr hwhy => exact ⟨hneg, hypercalls_accessOk hpre, testsRun_accessOk hpre⟩
    | accepted hpre hok => exact absurd hneg (by decide)

theorem neg_of_fields (h : CallTrace pcmTestIocMaxnr arms cmd tr r)
    (hfields : ¬ FieldsOk pcmTestIocMaxnr cmd) : r < 0 := by
  cases h with
  | rejected hpre herr hwhy => exact herr
  | accepted hpre hok => exact absurd hok hfields

end Trace

/-- A word is served right exactly when it is a code or a check rejects it. Number 0 passes the
checks, and so does a code with size or direction bits. -/
theorem servesCodes_iff (ok : AccessOk) (cmd : U32) (arg : U64) :
    ServesCodes cmd ((pcmCdevIoctl cmd arg).log (kernel ok) ())
        ((pcmCdevIoctl cmd arg).exec (kernel ok) ()).1 ↔
      (∃ t, cmd = code t) ∨ ¬ FieldsOk pcmTestIocMaxnr cmd ∨ refused ok cmd arg := by
  have htrace := callTrace_of_runs ((pcmCdevIoctl cmd arg).runs_log (kernel ok) ())
  constructor
  · intro hserves
    by_contra hnot
    obtain ⟨hnone, hnot⟩ := not_or.mp hnot
    obtain ⟨hfields, hrefused⟩ := not_or.mp hnot
    have hr := exec_pcmCdevIoctl ok arg (not_not.mp hfields)
    rw [if_neg hrefused] at hr
    exact hnone (hserves.success.mp hr)
  · rintro (⟨t, rfl⟩ | hfields | hrefused)
    · exact servesCodes_of_code htrace
    · exact servesCodes_of_neg htrace (neg_of_fields htrace hfields)
    · apply servesCodes_of_neg htrace
      by_cases hfields : FieldsOk pcmTestIocMaxnr cmd
      · rw [exec_pcmCdevIoctl ok arg hfields, if_pos hrefused]
        decide
      · exact neg_of_fields htrace hfields

/-- Number 0 runs nothing and reports success. -/
theorem servesCodes_zero :
    ¬ ∀ (ok : AccessOk) (cmd : U32) (arg : U64),
      ServesCodes cmd ((pcmCdevIoctl cmd arg).log (kernel ok) ())
        ((pcmCdevIoctl cmd arg).exec (kernel ok) ()).1 := by
  intro h
  have hcases := (servesCodes_iff (fun _ _ _ => true) (io pcmTestIocMagic 0) 0).mp (h _ _ _)
  have hcode : ∀ t, io pcmTestIocMagic 0 ≠ code t := by
    intro t
    cases t <;> decide
  have hfields : FieldsOk pcmTestIocMaxnr (io pcmTestIocMagic 0) := by
    unfold FieldsOk
    decide
  rcases hcases with ⟨t, ht⟩ | hnot | hrefused
  · exact hcode t ht
  · exact hnot hfields
  · exact absurd hrefused (by decide)

end FocusTest

end PcmTest.Driver
