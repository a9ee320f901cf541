import PcmTest.Apps.Pcmtest

/-!
# One name for the two tools

A test run is read with `ckevent -t s` after `pcmtest -t s` has recorded it. The
guest tool with the driver behind its ioctl tells which instruction is recorded,
the host tool which record it takes the log for. The tables agree on seven names.
-/

namespace PcmTest.Apps

open Theory CString Driver FocusTest

/-- The commands of the tool, with those of the driver in place of its ioctl. -/
inductive SysCmd where
  | app (c : AppCmd)
  | driver (c : IoctlCmd Test)
  deriving DecidableEq, Repr

def SysCmd.Answer : SysCmd → Type
  | .app c => c.Answer
  | .driver c => c.Answer

instance SysCmd.inhabitedAnswer : (c : SysCmd) → Inhabited c.Answer
  | .app c => inferInstanceAs (Inhabited c.Answer)
  | .driver c => inferInstanceAs (Inhabited c.Answer)

abbrev SysProg := Prog SysCmd SysCmd.Answer

abbrev SysTrace := List (Prog.Event SysCmd SysCmd.Answer)

def driverCmd (c : IoctlCmd Test) : SysProg c.Answer := Prog.call (SysCmd.driver c)

/-- The driver takes the low half of the request; a negative result becomes `-1`. -/
def systemCall : (c : AppCmd) → SysProg c.Answer
  | .ioctl _ request arg => do
    let r ← (pcmCdevIoctl (request.setWidth 32) arg).expand driverCmd
    pure (if r < 0 then (-1 : ℤ) else r)
  | .openDev => Prog.call (SysCmd.app .openDev)
  | .close fd => Prog.call (SysCmd.app (.close fd))
  | .printError => Prog.call (SysCmd.app .printError)

def guest (fd : ℤ) (arg : U64) (opts : List Opt) : SysProg (Option ℤ) :=
  (Pcmtest.main fd arg opts).expand systemCall

/-- The tests that the driver ran. -/
def recorded (tr : SysTrace) : List Test :=
  tr.filterMap fun
    | ⟨.driver (.test t), _⟩ => some t
    | _ => none

def ioctlCalls (tr : AppTrace) : List U64 :=
  tr.filterMap fun
    | ⟨.ioctl _ request _, _⟩ => some request
    | _ => none

/-- The record that `ckevent` takes the log for. -/
def decodes (opts : List Opt) : Option Ckevent.Record :=
  match Ckevent.main opts with
  | .ran (some arm) => arm.body.map Ckevent.Decoder.record
  | _ => none

def name : Test → CString
  | .cpuid => ofString "cpuid"
  | .rdpmc => ofString "rdpmc"
  | .rdrand => ofString "rdrand"
  | .rdseed => ofString "rdseed"
  | .invd => ofString "invd"
  | .rdtsc => ofString "rdtsc"
  | .rdtscp => ofString "rdtscp"
  | .pio => ofString "pio"
  | .mmio => ofString "mmio"
  | .icmp => ofString "icmp"

/-- The record that a test leaves, among those that the host tool knows; `RDRAND` leaves that of
`RDSEED`. -/
def recordOf : Test → Option Ckevent.Record
  | .cpuid => some Ckevent.eventLogCpuidRead
  | .rdpmc => some Ckevent.eventLogRdpmc
  | .rdrand => some Ckevent.eventLogRdseed
  | .rdseed => some Ckevent.eventLogRdseed
  | .rdtsc => some Ckevent.eventLogRdtsc
  | .rdtscp => some Ckevent.eventLogRdtscp
  | .pio => some Ckevent.eventLogPioIns
  | .mmio => some Ckevent.eventLogMmioIns
  | .invd => none
  | .icmp => none

/-- The two tools treat `s` as the same instruction. -/
structure Agrees (s : CString) : Prop where
  layout : ∀ fd arg tr r, (guest fd arg [.t s]).Runs tr r → ∀ t ∈ recorded tr,
    ∃ record, recordOf t = some record ∧ decodes [.t s] = some record
  silent : (∀ t, s ≠ name t) → ∀ fd arg tr r, (Pcmtest.main fd arg [.t s]).Runs tr r →
    ioctlCalls tr = []

section Guest

/-- The code that `pcmtest -t s` calls the driver with. -/
def insIoc (s : CString) : U32 := ((armOf Pcmtest.arms s).map Arm.body).getD cpuid

@[simp] theorem recorded_append (tr₁ tr₂ : SysTrace) :
    recorded (tr₁ ++ tr₂) = recorded tr₁ ++ recorded tr₂ := List.filterMap_append

/-- The driver's commands show in the trace of the whole as they are. -/
theorem recorded_driver {tr : IoctlTrace Test} {tr' : SysTrace}
    (h : Prog.Expands driverCmd tr tr') : recorded tr' = testsRun tr := by
  induction h with
  | nil => rfl
  | @cons c x part tr tr' hpart hrest ih =>
    rw [Prog.runs_call hpart, recorded_append, ih]
    cases c <;> rfl

theorem recorded_ioctl {fd : ℤ} {request arg : U64} {tr : SysTrace} {r : ℤ}
    (h : (systemCall (.ioctl fd request arg)).Runs tr r) :
    recorded tr = (requested (request.setWidth 32)).toList := by
  obtain ⟨tr₁, a, tr₂, rfl, hdriver, hlast⟩ := Prog.runs_bind.mp h
  obtain ⟨rfl, -⟩ := Prog.runs_pure.mp hlast
  obtain ⟨tr₀, hrun, hexp⟩ := Prog.runs_expand hdriver
  rw [List.append_nil, recorded_driver hexp,
    testsRun_of_callTrace codesOk_arms (callTrace_of_runs hrun), switchTests_arms]

/-- After the driver there is only a print or a `close`. -/
theorem recorded_runTest {fd : ℤ} {arg : U64} {s : CString} {tr : SysTrace} {r : ℤ}
    (h : ((Pcmtest.runTest fd arg (armOf Pcmtest.arms s)).expand systemCall).Runs tr r) :
    recorded tr = (requested (insIoc s)).toList := by
  obtain ⟨tr₁, (err : ℤ), tr₂, rfl, hcall, hrest⟩ := Prog.runs_bind.mp h
  have hrequest : ((insIoc s).setWidth 64).setWidth 32 = insIoc s :=
    (BitVec.setWidth_setWidth_of_le (insIoc s) (show 32 ≤ 64 by decide)).trans
      (BitVec.setWidth_eq _)
  have htest := recorded_ioctl hcall
  have hlast : recorded tr₂ = [] := by
    change (Prog.expand systemCall (if err ≠ 0 then _ else _ : AppProg ℤ)).Runs tr₂ r at hrest
    split_ifs at hrest with herr
    · obtain ⟨x, tr₃, rfl, hdone⟩ := Prog.runs_op.mp hrest
      rw [(Prog.runs_pure.mp hdone).1]
      rfl
    · obtain ⟨x, tr₃, rfl, hdone⟩ := Prog.runs_op.mp hrest
      rw [(Prog.runs_pure.mp hdone).1]
      rfl
  rw [recorded_append, hlast, List.append_nil, htest]
  exact congrArg (fun cmd => (requested cmd).toList) hrequest

/-- What `pcmtest -t s` makes the driver run: nothing when the device does not open, and else the
test of the code that it found for `s`. -/
theorem recorded_guest {fd : ℤ} {arg : U64} {s : CString} {tr : SysTrace} {r : Option ℤ}
    (h : (guest fd arg [.t s]).Runs tr r) :
    recorded tr = [] ∨ recorded tr = (requested (insIoc s)).toList := by
  rw [guest, Pcmtest.main_t] at h
  obtain ⟨(fd : ℤ), tr', rfl, hrest⟩ := Prog.runs_op.mp h
  change (Prog.expand systemCall (if fd < 0 then _ else _ : AppProg (Option ℤ))).Runs tr' r at hrest
  split_ifs at hrest with hfd
  · obtain ⟨x, tr₃, rfl, hdone⟩ := Prog.runs_op.mp hrest
    rw [(Prog.runs_pure.mp hdone).1]
    exact .inl rfl
  · rw [Prog.expand_bind] at hrest
    obtain ⟨tr₁, code, tr₂, rfl, htest, hdone⟩ := Prog.runs_bind.mp hrest
    rw [(Prog.runs_pure.mp hdone).1, List.append_nil]
    have hrecorded := recorded_runTest htest
    exact .inr hrecorded

theorem exists_recorded (s : CString) : ∃ tr r, (guest 0 0 [.t s]).Runs tr r ∧
    recorded tr = (requested (insIoc s)).toList := by
  let test := (Pcmtest.runTest 0 0 (armOf Pcmtest.arms s)).expand systemCall
  obtain ⟨tr, code, hrun⟩ := test.exists_runs
  have hrecorded := recorded_runTest hrun
  refine ⟨⟨.app .openDev, (0 : ℤ)⟩ :: tr, some code, ?_, hrecorded⟩
  rw [guest, Pcmtest.main_t]
  refine Prog.runs_op.mpr ⟨(0 : ℤ), tr, rfl, ?_⟩
  change (Prog.expand systemCall (if (0 : ℤ) < 0 then _ else _ : AppProg (Option ℤ))).Runs tr _
  rw [if_neg (by decide), Prog.expand_bind]
  exact Prog.runs_bind.mpr ⟨tr, code, [], (List.append_nil tr).symm, hrun, .pure _⟩

end Guest

section Tables

theorem decodes_t (s : CString) : decodes [.t s] =
    (armOf Ckevent.arms s).bind fun arm => arm.body.map Ckevent.Decoder.record := by
  rw [decodes, show [Opt.t s] = [s].map Opt.t from rfl, Ckevent.main_t]
  change (match Ckevent.Outcome.ran (armOf Ckevent.arms s) with
    | .ran (some arm) => arm.body.map Ckevent.Decoder.record
    | _ => none) = _
  cases armOf Ckevent.arms s <;> rfl

/-- The names whose test and record belong together. -/
def agreed : List CString :=
  [ofString "cpuid", ofString "rdpmc", ofString "rdrand", ofString "rdseed", ofString "rdtsc",
    ofString "rdtscp", ofString "mmio"]

/-- The test of the code that the guest finds for `s` leaves the record that the host decodes. -/
def Matches (s : CString) : Prop :=
  ∀ t ∈ requested (insIoc s), recordOf t ≠ none ∧ decodes [.t s] = recordOf t

instance (s : CString) : Decidable (Matches s) :=
  inferInstanceAs (Decidable (∀ t ∈ requested (insIoc s), recordOf t ≠ none ∧ _ = recordOf t))

theorem matches_arms : ∀ arm ∈ Pcmtest.arms, Matches arm.name ↔ arm.name ∈ agreed := by
  decide +kernel

/-- A name that the guest does not know runs `CPUID`, and the host does not know it either. -/
theorem not_matches_of_none {s : CString} (h : armOf Pcmtest.arms s = none) : ¬ Matches s := by
  intro hmatches
  have hhost : armOf Ckevent.arms s = none := by
    have hnames : ∀ arm ∈ Ckevent.arms, armOf Pcmtest.arms arm.name ≠ none := by decide
    cases harm : armOf Ckevent.arms s with
    | none => rfl
    | some arm =>
      obtain ⟨hmem, rfl⟩ := (armOf_eq_some_iff Ckevent.arms_distinct).mp harm
      exact absurd h (hnames arm hmem)
  have hcpuid : requested (insIoc s) = some .cpuid := by
    rw [insIoc, h]
    rfl
  obtain ⟨-, hdecodes⟩ := hmatches .cpuid hcpuid
  rw [decodes_t, hhost] at hdecodes
  cases hdecodes

theorem matches_iff (s : CString) : Matches s ↔ s ∈ agreed := by
  cases harm : armOf Pcmtest.arms s with
  | none =>
    have hagreed : ∀ x ∈ agreed, armOf Pcmtest.arms x ≠ none := by decide
    exact ⟨fun h => absurd h (not_matches_of_none harm), fun h => absurd harm (hagreed s h)⟩
  | some arm =>
    obtain ⟨hmem, rfl⟩ := (armOf_eq_some_iff Pcmtest.arms_distinct).mp harm
    exact matches_arms arm hmem

/-- The tools treat exactly seven names alike. -/
theorem agrees_iff (s : CString) : Agrees s ↔ s ∈ agreed := by
  rw [← matches_iff]
  constructor
  · rintro ⟨hlayout, -⟩ t ht
    obtain ⟨tr, r, hrun, hrecorded⟩ := exists_recorded s
    have hmem : t ∈ recorded tr := by
      rw [hrecorded]
      exact Option.mem_toList.mpr ht
    obtain ⟨record, hrecord, hdecodes⟩ := hlayout 0 0 tr r hrun t hmem
    rw [hdecodes, hrecord]
    exact ⟨Option.some_ne_none record, rfl⟩
  · intro hmatches
    constructor
    · intro fd arg tr r hrun t ht
      rcases recorded_guest hrun with hnil | htest
      · rw [hnil] at ht
        cases ht
      · rw [htest] at ht
        obtain ⟨hsome, hdecodes⟩ := hmatches t (Option.mem_toList.mp ht)
        obtain ⟨record, hrecord⟩ := Option.ne_none_iff_exists'.mp hsome
        exact ⟨record, hrecord, hdecodes.trans hrecord⟩
    · intro hnone
      have hnames : ∀ x ∈ agreed, ∃ t ∈ [Test.cpuid, .rdpmc, .rdrand, .rdseed, .rdtsc, .rdtscp,
          .mmio], x = name t := by decide
      obtain ⟨t, -, ht⟩ := hnames s ((matches_iff s).mp hmatches)
      exact absurd ht (hnone t)

/-- `pcmtest -t invd` records `CPUID`. -/
theorem not_agrees_invd : ¬ ∀ s, Agrees s := by
  intro h
  have hinvd := (agrees_iff (ofString "invd")).mp (h _)
  exact absurd hinvd (by decide)

end Tables

end PcmTest.Apps
