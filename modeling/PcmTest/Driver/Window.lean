import PcmTest.Driver.Dispatch
import PcmTest.Driver.TestBodies

/-!
# The interrupt flag between hypercalls 102 and 103

The driver with its test bodies in place is one program, and a trace of it takes
the interrupt flag through a sequence of states. Only `test_ioapic` enables
interrupts between the two hypercalls: its tests wait for the interrupts that
they raise.
-/

namespace PcmTest.Driver

open Theory PcmUnit

/-- The commands of the entry and of the test bodies. `test_kvm_clock` answers with the flag
that it leaves. -/
inductive WindowCmd where
  | accessOk (type : Verify) (addr : U64) (size : U32)
  | localIrqDisable
  | localIrqEnable
  | hypercall (nr : U32)
  | cpu (c : CpuCmd)
  | ioapic (c : Ioapic.Cmd)
  | kvmClock
  deriving DecidableEq, Repr

def WindowCmd.Answer : WindowCmd → Type
  | .accessOk _ _ _ | .kvmClock => Bool
  | .cpu c => c.Answer
  | .ioapic c => c.Answer
  | .localIrqDisable | .localIrqEnable | .hypercall _ => Unit

instance : (c : WindowCmd) → Inhabited c.Answer
  | .accessOk _ _ _ | .kvmClock => inferInstanceAs (Inhabited Bool)
  | .cpu c => inferInstanceAs (Inhabited c.Answer)
  | .ioapic c => inferInstanceAs (Inhabited c.Answer)
  | .localIrqDisable | .localIrqEnable | .hypercall _ => inferInstanceAs (Inhabited Unit)

abbrev WindowProg := Prog WindowCmd WindowCmd.Answer

abbrev WindowTrace := List (Prog.Event WindowCmd WindowCmd.Answer)

def cpuCall (c : CpuCmd) : WindowProg c.Answer := Prog.call (WindowCmd.cpu c)

def ioapicCall (c : Ioapic.Cmd) : WindowProg c.Answer := Prog.call (WindowCmd.ioapic c)

def testBody (arch : Arch) : Test → WindowProg Unit
  | .tsc => testTsc.expand cpuCall
  | .setjmp => testSetjmp.expand cpuCall
  | .msr => (testMsr arch).expand cpuCall
  | .kvmClock => do
    let _ ← (Prog.call WindowCmd.kvmClock : WindowProg Bool)
  | .ioapic => Ioapic.testIoapic.expand ioapicCall
  | .tscAdjust => testTscAdjust.expand cpuCall

def entryCmd (arch : Arch) : (c : IoctlCmd Test) → WindowProg c.Answer
  | .accessOk type addr size => Prog.call (WindowCmd.accessOk type addr size)
  | .localIrqDisable => Prog.call WindowCmd.localIrqDisable
  | .localIrqEnable => Prog.call WindowCmd.localIrqEnable
  | .hypercall nr => Prog.call (WindowCmd.hypercall nr)
  | .test t => testBody arch t

/-- `pcm_cdev_ioctl` with its test bodies. -/
def pcmCdevIoctlFull (arch : Arch) (cmd : U32) (arg : U64) : WindowProg ℤ :=
  (pcmCdevIoctl cmd arg).expand (entryCmd arch)

/-- The interrupt flag, the flags that `pushf` saved, and whether hypercall 102 was the last
of the two hypercalls. -/
structure FlagState where
  on : Bool
  pushed : List Bool
  recording : Bool
  deriving DecidableEq, Repr

namespace FlagState

def step (s : FlagState) : Prog.Event WindowCmd WindowCmd.Answer → FlagState
  | ⟨.localIrqDisable, _⟩ => { s with on := false }
  | ⟨.localIrqEnable, _⟩ => { s with on := true }
  | ⟨.hypercall nr, _⟩ => { s with recording := nr = 102 || nr ≠ 103 && s.recording }
  | ⟨.cpu .pushf, _⟩ => { s with pushed := s.on :: s.pushed }
  | ⟨.cpu .syscall, spared⟩ => { s with on := s.on && (show Bool from spared) }
  | ⟨.cpu .popf, _⟩ => { s with on := s.pushed.headD s.on, pushed := s.pushed.tail }
  | ⟨.ioapic .cli, _⟩ => { s with on := false }
  | ⟨.ioapic .sti, _⟩ => { s with on := true }
  | ⟨.kvmClock, on⟩ => { s with on := show Bool from on }
  | _ => s

/-- The state after a trace. -/
def after (s : FlagState) (tr : WindowTrace) : FlagState := tr.foldl step s

/-- The states that a trace passes through, with the first and the last. -/
def states (s : FlagState) : WindowTrace → List FlagState
  | [] => [s]
  | e :: tr => s :: (s.step e).states tr

end FlagState

def IsAccess : WindowCmd → Prop
  | .accessOk _ _ _ => True
  | _ => False

def IsIoapic : WindowCmd → Prop
  | .ioapic _ => True
  | _ => False

/-- The command cannot enable interrupts that were off when the driver was entered. -/
def KeepsOff : WindowCmd → Prop
  | .localIrqEnable | .kvmClock | .ioapic .sti => False
  | _ => True

/-- Interrupts are off, and so they are in every flag word that `popf` can restore. -/
structure FlagState.IsOff (s : FlagState) : Prop where
  on : s.on = false
  pushed : ∀ x ∈ s.pushed, x = false

/-- In every state of the trace between the two hypercalls the interrupt flag is off. -/
def WindowOff (s : FlagState) (tr : WindowTrace) : Prop :=
  ∀ t ∈ s.states tr, t.recording = true → t.on = false

section Flag

open FlagState

variable {s : FlagState}

theorem isOff_step {e : Prog.Event WindowCmd WindowCmd.Answer} (he : KeepsOff e.1) (hs : s.IsOff) :
    (s.step e).IsOff := by
  obtain ⟨c, x⟩ := e
  obtain ⟨hon, hpushed⟩ := hs
  cases c with
  | accessOk type addr size => exact ⟨hon, hpushed⟩
  | localIrqDisable => exact ⟨rfl, hpushed⟩
  | localIrqEnable => exact he.elim
  | hypercall nr => exact ⟨hon, hpushed⟩
  | cpu c =>
    cases c with
    | pushf => exact ⟨hon, List.forall_mem_cons.mpr ⟨hon, hpushed⟩⟩
    | syscall => exact ⟨by rw [step, hon, Bool.false_and], hpushed⟩
    | popf =>
      constructor
      · cases hs : s.pushed with
        | nil => simp [step, hs, hon]
        | cons x xs => simpa [step, hs] using hpushed x (by simp [hs])
      · exact fun x hx => hpushed x (List.mem_of_mem_tail hx)
    | _ => exact ⟨hon, hpushed⟩
  | ioapic c =>
    cases c with
    | cli => exact ⟨rfl, hpushed⟩
    | sti => exact he.elim
    | _ => exact ⟨hon, hpushed⟩
  | kvmClock => exact he.elim

theorem after_append (tr₁ tr₂ : WindowTrace) : s.after (tr₁ ++ tr₂) = (s.after tr₁).after tr₂ :=
  List.foldl_append

/-- Only the hypercalls of the entry open and close the window. -/
theorem recording_after {tr : WindowTrace} (htr : ∀ e ∈ tr, IsIoapic e.1) :
    (s.after tr).recording = s.recording := by
  induction tr generalizing s with
  | nil => rfl
  | cons e tr ih =>
    obtain ⟨he, htr⟩ := List.forall_mem_cons.mp htr
    refine (ih htr).trans ?_
    obtain ⟨c, x⟩ := e
    cases c with
    | ioapic c => cases c <;> rfl
    | _ => exact he.elim

theorem windowOff_nil : WindowOff s [] ↔ (s.recording = true → s.on = false) :=
  List.forall_mem_singleton

theorem windowOff_cons {e : Prog.Event WindowCmd WindowCmd.Answer} {tr : WindowTrace} :
    WindowOff s (e :: tr) ↔ (s.recording = true → s.on = false) ∧ WindowOff (s.step e) tr :=
  List.forall_mem_cons

theorem WindowOff.head {tr : WindowTrace} (h : WindowOff s tr) :
    s.recording = true → s.on = false := by
  cases tr with
  | nil => exact windowOff_nil.mp h
  | cons e tr => exact (windowOff_cons.mp h).1

theorem windowOff_append {tr₁ tr₂ : WindowTrace} :
    WindowOff s (tr₁ ++ tr₂) ↔ WindowOff s tr₁ ∧ WindowOff (s.after tr₁) tr₂ := by
  induction tr₁ generalizing s with
  | nil => exact ⟨fun h => ⟨windowOff_nil.mpr h.head, h⟩, fun h => h.2⟩
  | cons e tr ih =>
    rw [List.cons_append, windowOff_cons, windowOff_cons, ih, and_assoc]
    rfl

/-- A trace of commands that keep interrupts off. -/
theorem windowOff_of_isOff {tr : WindowTrace} (htr : ∀ e ∈ tr, KeepsOff e.1) (hs : s.IsOff) :
    WindowOff s tr ∧ (s.after tr).IsOff := by
  induction tr generalizing s with
  | nil => exact ⟨windowOff_nil.mpr fun _ => hs.on, hs⟩
  | cons e tr ih =>
    obtain ⟨he, htr⟩ := List.forall_mem_cons.mp htr
    obtain ⟨hoff, hafter⟩ := ih htr (isOff_step he hs)
    exact ⟨windowOff_cons.mpr ⟨fun _ => hs.on, hoff⟩, hafter⟩

theorem step_access {e : Prog.Event WindowCmd WindowCmd.Answer} (he : IsAccess e.1) :
    s.step e = s := by
  obtain ⟨c, x⟩ := e
  cases c with
  | accessOk type addr size => rfl
  | _ => exact he.elim

/-- The access check comes before the window and changes nothing. -/
theorem windowOff_access {tr : WindowTrace} (htr : ∀ e ∈ tr, IsAccess e.1)
    (hs : s.recording = false) : WindowOff s tr ∧ s.after tr = s := by
  have hoff : s.recording = true → s.on = false := fun h => absurd h (by simp [hs])
  induction tr with
  | nil => exact ⟨windowOff_nil.mpr hoff, rfl⟩
  | cons e tr ih =>
    obtain ⟨he, htr⟩ := List.forall_mem_cons.mp htr
    have hstep : s.step e = s := step_access he
    obtain ⟨hrest, hafter⟩ := ih htr
    refine ⟨windowOff_cons.mpr ⟨hoff, ?_⟩, ?_⟩
    · rw [hstep]
      exact hrest
    · rw [FlagState.after, List.foldl_cons, hstep]
      exact hafter

end Flag

section Trace

def openWindow : WindowTrace := [⟨.localIrqDisable, ()⟩, ⟨.hypercall 102, ()⟩]

def closeWindow : WindowTrace := [⟨.hypercall 103, ()⟩, ⟨.localIrqEnable, ()⟩]

/-- What an accepted call does around its test bodies. -/
def fullBracket (body : WindowTrace) : WindowTrace := openWindow ++ (body ++ closeWindow)

/-- The executions of one call with its test bodies in place. -/
inductive FullTrace (arch : Arch) (cmd : U32) : WindowTrace → ℤ → Prop
  | rejected {tr : WindowTrace} {err : ℤ} (htr : ∀ e ∈ tr, IsAccess e.1) (herr : err < 0)
      (hwhy : FieldsOk pcmTestIocMaxnr cmd → iocDir cmd ≠ 0) : FullTrace arch cmd tr err
  | accepted {pre body : WindowTrace} (hpre : ∀ e ∈ pre, IsAccess e.1)
      (hbody : Prog.Expands (entryCmd arch) ((switchTests cmd arms).map testEvent) body) :
      FullTrace arch cmd (pre ++ fullBracket body) 0

variable {arch : Arch} {cmd : U32}

theorem access_of_expands {tr : IoctlTrace Test} {tr' : WindowTrace}
    (hexp : Prog.Expands (entryCmd arch) tr tr') (htr : ∀ e ∈ tr, IsAccessOk e.1) :
    ∀ e ∈ tr', IsAccess e.1 := by
  have huses : ∀ e ∈ tr, (entryCmd arch e.1).Uses IsAccess := by
    rintro ⟨c, x⟩ he
    cases c with
    | accessOk type addr size => exact ⟨trivial, fun _ => trivial⟩
    | _ => exact (htr _ he).elim
  exact hexp.uses huses

theorem expands_bracket {body : IoctlTrace Test} {tr : WindowTrace}
    (hexp : Prog.Expands (entryCmd arch) (bracket body) tr) :
    ∃ body', Prog.Expands (entryCmd arch) body body' ∧ tr = fullBracket body' := by
  obtain ⟨_, _, rfl, h₁, hrest⟩ := Prog.expands_cons hexp
  obtain ⟨_, _, rfl, h₂, hrest⟩ := Prog.expands_cons hrest
  obtain ⟨body', _, rfl, hbody, hrest⟩ := Prog.expands_append hrest
  obtain ⟨_, _, rfl, h₃, hrest⟩ := Prog.expands_cons hrest
  obtain ⟨_, _, rfl, h₄, hrest⟩ := Prog.expands_cons hrest
  rw [Prog.runs_call h₁, Prog.runs_call h₂, Prog.runs_call h₃, Prog.runs_call h₄,
    Prog.expands_nil hrest]
  exact ⟨body', hbody, rfl⟩

theorem fullTrace_of_runs {arg : U64} {tr : WindowTrace} {r : ℤ}
    (h : (pcmCdevIoctlFull arch cmd arg).Runs tr r) : FullTrace arch cmd tr r := by
  obtain ⟨tr₀, hrun, hexp⟩ := Prog.runs_expand h
  cases callTrace_of_runs hrun with
  | rejected hpre herr hwhy => exact .rejected (access_of_expands hexp hpre) herr hwhy
  | accepted hpre hok =>
    obtain ⟨pre, _, rfl, hexpPre, hexp⟩ := Prog.expands_append hexp
    obtain ⟨body, hbody, rfl⟩ := expands_bracket hexp
    exact .accepted (access_of_expands hexpPre hpre) hbody

end Trace

section Bodies

/-- The tests other than those of the I/O APIC and the KVM clock leave interrupts off. -/
def LeavesOff : Test → Prop
  | .kvmClock | .ioapic => False
  | _ => True

theorem uses_testBody (arch : Arch) {t : Test} (ht : LeavesOff t) :
    (testBody arch t).Uses KeepsOff := by
  have hcpu : ∀ p : CpuProg Unit, (p.expand cpuCall).Uses KeepsOff :=
    Prog.uses_expand_of_forall cpuCall fun _ => ⟨trivial, fun _ => trivial⟩
  cases t with
  | kvmClock => exact ht.elim
  | ioapic => exact ht.elim
  | _ => exact hcpu _

/-- What `test_ioapic` does before it enables interrupts. -/
def ioapicSetup : Ioapic.IoapicProg Bool := do
  Ioapic.maskPicInterrupts
  Ioapic.enableX2apicLocal

theorem testIoapic_eq : ∃ rest, Ioapic.testIoapic =
    ioapicSetup.bind fun _ => Ioapic.irqEnable.bind fun _ => rest := ⟨_, rfl⟩

end Bodies

section Window

/-- The state when the driver is entered. -/
def FlagState.enter (on : Bool) : FlagState := ⟨on, [], false⟩

/-- In every execution of the call the flag is off from hypercall 102 to hypercall 103. -/
def KeepsWindow (arch : Arch) (cmd : U32) (arg : U64) : Prop :=
  ∀ (on : Bool) (tr : WindowTrace) (r : ℤ), (pcmCdevIoctlFull arch cmd arg).Runs tr r →
    WindowOff (.enter on) tr

def stiEvent : Prog.Event WindowCmd WindowCmd.Answer := ⟨.ioapic .sti, ()⟩

/-- In every execution of the call the flag is off from hypercall 102 until `test_ioapic`,
after its setup, enables interrupts inside the window. -/
def OffUntilIrqEnable (arch : Arch) (cmd : U32) (arg : U64) : Prop :=
  ∀ (on : Bool) (tr : WindowTrace) (r : ℤ), (pcmCdevIoctlFull arch cmd arg).Runs tr r →
    ∃ (before setup after : WindowTrace) (x2apic : Bool),
      tr = (before ++ setup) ++ stiEvent :: after ∧
        (ioapicSetup.expand ioapicCall).Runs setup x2apic ∧
        WindowOff (.enter on) (before ++ setup) ∧
        ((FlagState.enter on).after (before ++ setup)).recording = true ∧
        (((FlagState.enter on).after (before ++ setup)).step stiEvent).on = true

/-- Every command but `KVMCLOCK_TEST`, which falls through into `test_ioapic`. -/
def WindowLaw (arch : Arch) (cmd : U32) (arg : U64) : Prop :=
  if cmd = kvmclockTest then True
  else if cmd = ioapicTest then OffUntilIrqEnable arch cmd arg
  else KeepsWindow arch cmd arg

variable {arch : Arch} {cmd : U32}

theorem leavesOff_of_mem (hkvm : cmd ≠ kvmclockTest) (hio : cmd ≠ ioapicTest) {t : Test}
    (ht : t ∈ switchTests cmd arms) : LeavesOff t := by
  rw [switchTests_arms, (fallsInto_eq_nil_iff cmd).mpr ⟨hkvm, hio⟩, List.append_nil] at ht
  have hreq : requested cmd = some t := by simpa using ht
  have hcode := code_of_requestedIn hreq
  cases t with
  | kvmClock => exact hkvm hcode
  | ioapic => exact hio hcode
  | _ => trivial

theorem after_openWindow {s : FlagState} (hpushed : s.pushed = []) :
    s.after openWindow = ⟨false, [], true⟩ := by
  rw [← hpushed]
  rfl

theorem windowOff_openWindow {s : FlagState} (hrecording : s.recording = false) :
    WindowOff s openWindow := by
  refine windowOff_cons.mpr ⟨fun h => absurd h (by simp [hrecording]), ?_⟩
  exact windowOff_cons.mpr ⟨fun _ => rfl, windowOff_nil.mpr fun _ => rfl⟩

/-- A window whose commands keep interrupts off. -/
theorem windowOff_fullBracket {s : FlagState} (hrecording : s.recording = false)
    (hpushed : s.pushed = []) {body : WindowTrace} (hbody : ∀ e ∈ body, KeepsOff e.1) :
    WindowOff s (fullBracket body) := by
  have hopen : FlagState.IsOff ⟨false, [], true⟩ := ⟨rfl, by simp⟩
  obtain ⟨hoff, hafter⟩ := windowOff_of_isOff hbody hopen
  have hclose : WindowOff ((FlagState.mk false [] true).after body) closeWindow := by
    refine windowOff_cons.mpr ⟨fun _ => hafter.on, windowOff_cons.mpr ⟨fun _ => hafter.on, ?_⟩⟩
    exact windowOff_nil.mpr fun h => Bool.noConfusion h
  rw [fullBracket, windowOff_append, windowOff_append, after_openWindow hpushed]
  exact ⟨windowOff_openWindow hrecording, hoff, hclose⟩

theorem keepsWindow_of_ne (hkvm : cmd ≠ kvmclockTest) (hio : cmd ≠ ioapicTest) (arg : U64) :
    KeepsWindow arch cmd arg := by
  intro on tr r h
  cases fullTrace_of_runs h with
  | rejected htr herr hwhy => exact (windowOff_access htr rfl).1
  | @accepted pre body hpre hbody =>
    obtain ⟨hoff, hafter⟩ := windowOff_access hpre (s := .enter on) rfl
    have huses : ∀ e ∈ (switchTests cmd arms).map testEvent, (entryCmd arch e.1).Uses KeepsOff := by
      intro e he
      obtain ⟨t, ht, rfl⟩ := List.mem_map.mp he
      exact uses_testBody arch (leavesOff_of_mem hkvm hio ht)
    rw [windowOff_append, hafter]
    exact ⟨hoff, windowOff_fullBracket rfl rfl (hbody.uses huses)⟩

/-- A run of `test_ioapic` starts with its setup and the `sti` after it. -/
theorem runs_testIoapic {tr : WindowTrace} {u : Unit}
    (h : (Ioapic.testIoapic.expand ioapicCall).Runs tr u) :
    ∃ setup x2apic after, tr = setup ++ stiEvent :: after ∧
      (ioapicSetup.expand ioapicCall).Runs setup x2apic := by
  obtain ⟨rest, hrest⟩ := testIoapic_eq
  rw [hrest, Prog.expand_bind] at h
  obtain ⟨setup, x2apic, tr₁, rfl, hsetup, h⟩ := Prog.runs_bind.mp h
  rw [Prog.expand_bind] at h
  obtain ⟨tr₂, ⟨⟩, after, rfl, hsti, -⟩ := Prog.runs_bind.mp h
  have hevent : tr₂ = [stiEvent] := Prog.runs_call (c := WindowCmd.ioapic .sti) hsti
  rw [hevent]
  exact ⟨setup, x2apic, after, rfl, hsetup⟩

theorem runs_kvmClock {tr : WindowTrace} {u : Unit}
    (h : ((Prog.call WindowCmd.kvmClock).bind fun _ => Prog.pure ()).Runs tr u) :
    ∃ left : Bool, tr = [⟨.kvmClock, left⟩] := by
  obtain ⟨left, tr, rfl, hrest⟩ := Prog.runs_op.mp h
  obtain ⟨rfl, -⟩ := Prog.runs_pure.mp hrest
  exact ⟨left, rfl⟩

theorem uses_ioapicCall {α : Type} (p : Ioapic.IoapicProg α) :
    (p.expand ioapicCall).Uses IsIoapic :=
  Prog.uses_expand_of_forall ioapicCall (fun _ => ⟨trivial, fun _ => trivial⟩) p

theorem uses_ioapicSetup : (ioapicSetup.expand ioapicCall).Uses KeepsOff := by
  have hx2apic : Ioapic.enableX2apicLocal.Uses fun c => KeepsOff (.ioapic c) := by
    refine ⟨trivial, fun c => ?_⟩
    dsimp only [Prog.bind]
    split_ifs
    · exact ⟨trivial, fun _ => ⟨trivial, fun _ => trivial⟩⟩
    · trivial
  have hsetup : ioapicSetup.Uses fun c => KeepsOff (.ioapic c) :=
    ⟨trivial, fun _ => ⟨trivial, fun _ => hx2apic⟩⟩
  exact Prog.uses_expand ioapicCall hsetup fun c hc => ⟨hc, fun _ => trivial⟩

/-- The window is open after the access check and the hypercall, with interrupts off. -/
theorem windowOff_opened {pre : WindowTrace} (hpre : ∀ e ∈ pre, IsAccess e.1) (on : Bool) :
    WindowOff (.enter on) (pre ++ openWindow) ∧
      (FlagState.enter on).after (pre ++ openWindow) = ⟨false, [], true⟩ := by
  obtain ⟨hoff, hafter⟩ := windowOff_access hpre (s := .enter on) rfl
  rw [windowOff_append, after_append, hafter]
  exact ⟨⟨hoff, windowOff_openWindow rfl⟩, after_openWindow rfl⟩

theorem windowOff_setup {setup : WindowTrace} {x2apic : Bool}
    (hsetup : (ioapicSetup.expand ioapicCall).Runs setup x2apic) :
    WindowOff ⟨false, [], true⟩ setup ∧
      ((FlagState.mk false [] true).after setup).recording = true :=
  ⟨(windowOff_of_isOff (uses_ioapicSetup.of_runs hsetup) ⟨rfl, by simp⟩).1,
    recording_after ((uses_ioapicCall _).of_runs hsetup)⟩

theorem offUntilIrqEnable_ioapic (arg : U64) : OffUntilIrqEnable arch ioapicTest arg := by
  intro on tr r h
  cases fullTrace_of_runs h with
  | rejected htr herr hwhy => exact absurd (by decide) (hwhy (by unfold FieldsOk; decide))
  | @accepted pre body hpre hbody =>
    obtain ⟨part, rest, rfl, hpart, -⟩ := Prog.expands_cons hbody
    obtain ⟨setup, x2apic, after, rfl, hsetup⟩ := runs_testIoapic hpart
    obtain ⟨hoff, hopen⟩ := windowOff_opened hpre on
    obtain ⟨hkeeps, hrecording⟩ := windowOff_setup hsetup
    refine ⟨pre ++ openWindow, setup, after ++ (rest ++ closeWindow), x2apic, ?_, hsetup, ?_, ?_,
      rfl⟩
    · simp [fullBracket]
    · rw [windowOff_append, hopen]
      exact ⟨hoff, hkeeps⟩
    · rw [after_append, hopen]
      exact hrecording

/-- `KVMCLOCK_TEST` enters `test_kvm_clock` inside the window, with the flag off since hypercall
102. When that leaves it off, it stays off until the `irq_enable` of `test_ioapic`, which is
always reached. -/
theorem window_kvmclock {arg : U64} {tr : WindowTrace} {r : ℤ} (on : Bool)
    (h : (pcmCdevIoctlFull arch kvmclockTest arg).Runs tr r) :
    ∃ (before setup after : WindowTrace) (left x2apic : Bool),
      tr = before ++ ⟨.kvmClock, left⟩ :: (setup ++ stiEvent :: after) ∧
        (ioapicSetup.expand ioapicCall).Runs setup x2apic ∧
        WindowOff (.enter on) before ∧
        (FlagState.enter on).after before = ⟨false, [], true⟩ ∧
        (left = false → WindowOff (.enter on) (before ++ ⟨.kvmClock, left⟩ :: setup)) := by
  cases fullTrace_of_runs h with
  | rejected htr herr hwhy => exact absurd (by decide) (hwhy (by unfold FieldsOk; decide))
  | @accepted pre body hpre hbody =>
    obtain ⟨clock, _, rfl, hclock, hrest⟩ := Prog.expands_cons hbody
    obtain ⟨part, rest, rfl, hpart, -⟩ := Prog.expands_cons hrest
    obtain ⟨setup, x2apic, after, rfl, hsetup⟩ := runs_testIoapic hpart
    obtain ⟨left, rfl⟩ := runs_kvmClock hclock
    obtain ⟨hoff, hopen⟩ := windowOff_opened hpre on
    refine ⟨pre ++ openWindow, setup, after ++ (rest ++ closeWindow), left, x2apic, ?_, hsetup,
      hoff, hopen, ?_⟩
    · simp [fullBracket]
    · rintro rfl
      rw [windowOff_append, hopen, windowOff_cons]
      exact ⟨hoff, fun _ => rfl, (windowOff_setup hsetup).1⟩

end Window

/-- The window law for every command of the driver. -/
theorem pcmCdevIoctl_window (arch : Arch) (cmd : U32) (arg : U64) : WindowLaw arch cmd arg := by
  unfold WindowLaw
  by_cases hkvm : cmd = kvmclockTest
  · rw [if_pos hkvm]
    trivial
  · rw [if_neg hkvm]
    by_cases hio : cmd = ioapicTest
    · rw [if_pos hio, hio]
      exact offUntilIrqEnable_ioapic arg
    · rw [if_neg hio]
      exact keepsWindow_of_ne hkvm hio arg

/-- `test_ioapic` runs its tests with interrupts enabled. -/
theorem pcmCdevIoctl_opens_window :
    ¬ ∀ (arch : Arch) (cmd : U32) (arg : U64), KeepsWindow arch cmd arg := by
  intro h
  obtain ⟨tr, r, hrun⟩ := Prog.exists_runs (pcmCdevIoctlFull .i386 ioapicTest 0)
  obtain ⟨before, setup, after, x2apic, rfl, -, -, hrecording, hon⟩ :=
    offUntilIrqEnable_ioapic 0 true tr r hrun
  have hwindow := h .i386 ioapicTest 0 true _ r hrun
  rw [windowOff_append, windowOff_cons] at hwindow
  have hoff := hwindow.2.2.head hrecording
  rw [hon] at hoff
  exact Bool.noConfusion hoff

end PcmTest.Driver
