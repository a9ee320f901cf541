import PcmTest.Ioapic.Tests

/-!
# The calls of an execution

Most accesses of `test_ioapic` go to the devices and the statics. What reaches further
is noted here: a call of `handle_irq_local`, a write to an MSR, and the question how many
CPUs are online, with its answer. Every execution makes the same calls in the same order,
up to the APIC base and the tests that need a second CPU.
-/

namespace PcmTest.Ioapic

open Theory

inductive Note where
  | install (vec : ℕ) (isr : Isr)
  | wrmsr (index a d : U32)
  | online (n : ℕ)
  deriving DecidableEq, Repr

def note : Prog.Event Cmd Cmd.Answer → Option Note
  | ⟨.handleIrqLocal vec isr, _⟩ => some (.install vec.toNat isr)
  | ⟨.wrmsr index a d, _⟩ => some (.wrmsr index a d)
  | ⟨.numOnlineCpus, n⟩ => some (.online n)
  | _ => none

def notes (tr : List (Prog.Event Cmd Cmd.Answer)) : List Note := tr.filterMap note

theorem notes_append (tr₁ tr₂ : List (Prog.Event Cmd Cmd.Answer)) :
    notes (tr₁ ++ tr₂) = notes tr₁ ++ notes tr₂ := List.filterMap_append

/-- The vector of a handler. -/
def Isr.vector : Isr → ℕ
  | .isr76 => 0x76
  | .isr77 => 0x77
  | .isr78 => 0x78
  | .isr66 => 0x66
  | .isr79 => 0x79
  | .isr98 => 0x98
  | .isr99 => 0x99
  | .isr9a => 0x9a
  | .isr81 => 0x81
  | .isr82 => 0x82
  | .isr83 => 0x83

def installNotes (l : List Isr) : List Note := l.map fun isr => .install isr.vector isr

/-- A command of which no note is taken. -/
def Routine (c : Cmd) : Prop := ∀ x : c.Answer, note ⟨c, x⟩ = none

section Helpers

theorem routine_call {c : Cmd} (hc : Routine c) :
    (Prog.call c : IoapicProg c.Answer).Uses Routine :=
  Prog.uses_call.mpr hc

theorem routine_setIoapicRedir (line vec : U32) (trigMode : TriggerMode) :
    (setIoapicRedir line vec trigMode).Uses Routine :=
  uses_ioapicWriteRedir (fun _ _ _ => rfl) _ _

theorem routine_ioapicReadReg (reg : U32) : (ioapicReadReg reg).Uses Routine :=
  Prog.uses_bind (routine_call fun _ => rfl) fun _ => routine_call fun _ => rfl

theorem routine_ioapicWriteReg (reg value : U32) : (ioapicWriteReg reg value).Uses Routine :=
  Prog.uses_bind (routine_call fun _ => rfl) fun _ => routine_call fun _ => rfl

theorem routine_setMask (line mask : U32) : (setMask line mask).Uses Routine := by
  refine Prog.uses_bind ?_ fun _ => uses_ioapicWriteRedir (fun _ _ _ => rfl) _ _
  refine Prog.uses_bind (routine_ioapicReadReg _) fun _ => ?_
  exact Prog.uses_bind (routine_ioapicReadReg _) fun _ => trivial

theorem routine_setIrqLine (line val : U32) : (setIrqLine line val).Uses Routine :=
  routine_call fun _ => rfl

theorem routine_toggleIrqLine (line : U32) : (toggleIrqLine line).Uses Routine :=
  Prog.uses_bind (routine_setIrqLine _ _) fun _ => routine_setIrqLine _ _

theorem routine_nop : nop.Uses Routine := routine_call fun _ => rfl

theorem routine_irqEnable : irqEnable.Uses Routine := routine_call fun _ => rfl

theorem routine_irqDisable : irqDisable.Uses Routine := routine_call fun _ => rfl

theorem routine_apicReadBit : (apicReadBit apicTmr 0x79).Uses Routine :=
  Prog.uses_bind (routine_call fun _ => rfl) fun _ => trivial

theorem routine_retriggerRounds (i : ℕ) : (retriggerRounds i).Uses Routine := by
  induction i with
  | zero => trivial
  | succ i ih =>
    refine Prog.uses_bind (routine_call fun _ => rfl) fun x => ?_
    split_ifs
    · trivial
    · refine Prog.uses_bind routine_irqEnable fun _ => ?_
      refine Prog.uses_bind (routine_call fun _ => rfl) fun _ => ?_
      exact Prog.uses_bind routine_irqDisable fun _ => ih

theorem routine_readWriteRead (reg : U32) (value : U32 → U32) :
    ((ioapicReadReg reg).bind fun x => (ioapicWriteReg reg (value x)).bind fun _ =>
      (ioapicReadReg reg).bind fun _ => Prog.pure ()).Uses Routine :=
  Prog.uses_bind (routine_ioapicReadReg _) fun _ => Prog.uses_bind (routine_ioapicWriteReg _ _)
    fun _ => Prog.uses_bind (routine_ioapicReadReg _) fun _ => trivial

theorem routine_ioapicArbitrationId : ioapicArbitrationId.Uses Routine := by
  refine Prog.uses_bind (routine_ioapicWriteReg _ _) fun _ => ?_
  refine Prog.uses_bind (routine_ioapicReadReg _) fun _ => ?_
  refine Prog.uses_bind (routine_ioapicWriteReg _ _) fun _ => ?_
  exact Prog.uses_bind (routine_ioapicReadReg _) fun _ => trivial

end Helpers

section Tests

/-- Every execution installs these handlers, and there is nothing else to note. -/
abbrev Installs (l : List Isr) (p : IoapicProg Unit) : Prop := p.Picks note (installNotes l)

variable {l l' : List Isr} {p q : IoapicProg Unit}

theorem installs_routine (h : p.Uses Routine) : Installs [] p := Prog.picks_of_uses h

theorem installs_then (hp : Installs l p) (hq : Installs l' q) :
    Installs (l ++ l') (p.bind fun _ => q) := by
  have hboth := Prog.picks_bind hp fun _ => hq
  rwa [installNotes, installNotes, ← List.map_append] at hboth

theorem installs_routine_then {α : Type} {r : IoapicProg α} {q : α → IoapicProg Unit}
    (hr : r.Uses Routine) (hq : ∀ a, Installs l (q a)) : Installs l (r.bind q) :=
  Prog.picks_bind (Prog.picks_of_uses hr) hq

theorem installs_handleIrqLocal {vec : U32} {isr : Isr} (hvec : vec.toNat = isr.vector) :
    Installs [isr] (handleIrqLocal vec isr) := by
  have hcall : (handleIrqLocal vec isr).Picks note [.install vec.toNat isr] :=
    Prog.picks_call fun _ => rfl
  rwa [hvec] at hcall

/-- A test that starts with its handler and its entry. -/
theorem installs_test {vec line vec' : U32} {isr : Isr} {trigMode : TriggerMode}
    (hvec : vec.toNat = isr.vector) (hp : p.Uses Routine) :
    Installs [isr] ((handleIrqLocal vec isr).bind fun _ =>
      (setIoapicRedir line vec' trigMode).bind fun _ => p) :=
  installs_then (installs_handleIrqLocal hvec) (installs_routine
    (Prog.uses_bind (routine_setIoapicRedir _ _ _) fun _ => hp))

theorem installs_edgeIntr : Installs [Isr.isr76] testIoapicEdgeIntr :=
  installs_test rfl (Prog.uses_bind (routine_toggleIrqLine _) fun _ => routine_nop)

theorem installs_levelIntr : Installs [Isr.isr77] testIoapicLevelIntr :=
  installs_test rfl (Prog.uses_bind (routine_setIrqLine _ _) fun _ => routine_nop)

theorem installs_simultaneous : Installs [Isr.isr78, .isr66] testIoapicSimultaneous := by
  refine installs_then (l := [Isr.isr78]) (installs_handleIrqLocal rfl) (installs_test rfl ?_)
  refine Prog.uses_bind (routine_setIoapicRedir _ _ _) fun _ => ?_
  refine Prog.uses_bind routine_irqDisable fun _ => ?_
  refine Prog.uses_bind (routine_toggleIrqLine _) fun _ => ?_
  refine Prog.uses_bind (routine_toggleIrqLine _) fun _ => ?_
  exact Prog.uses_bind routine_irqEnable fun _ => routine_nop

theorem installs_levelCoalesce : Installs [Isr.isr98] testIoapicLevelCoalesce :=
  installs_test rfl (Prog.uses_bind (routine_setIrqLine _ _) fun _ => routine_nop)

theorem installs_levelSequential : Installs [Isr.isr99] testIoapicLevelSequential :=
  installs_test rfl (Prog.uses_bind (routine_setIrqLine _ _) fun _ =>
    Prog.uses_bind (routine_setIrqLine _ _) fun _ => routine_nop)

theorem installs_levelRetrigger : Installs [Isr.isr9a] testIoapicLevelRetrigger := by
  refine installs_test rfl (Prog.uses_bind routine_irqDisable fun _ => ?_)
  refine Prog.uses_bind (routine_setIrqLine _ _) fun _ => ?_
  exact Prog.uses_bind (routine_retriggerRounds 10) fun _ => routine_irqEnable

theorem installs_edgeMask : Installs [Isr.isr81] testIoapicEdgeMask := by
  refine installs_test rfl (Prog.uses_bind (routine_setMask _ _) fun _ => ?_)
  refine Prog.uses_bind (routine_setIrqLine _ _) fun _ => ?_
  refine Prog.uses_bind (routine_setIrqLine _ _) fun _ => ?_
  refine Prog.uses_bind routine_nop fun _ => ?_
  refine Prog.uses_bind (routine_setMask _ _) fun _ => ?_
  exact Prog.uses_bind (routine_setIrqLine _ _) fun _ => routine_nop

theorem installs_levelMask : Installs [Isr.isr82] testIoapicLevelMask := by
  refine installs_test rfl (Prog.uses_bind (routine_setMask _ _) fun _ => ?_)
  refine Prog.uses_bind (routine_setIrqLine _ _) fun _ => ?_
  refine Prog.uses_bind routine_nop fun _ => ?_
  exact Prog.uses_bind (routine_setMask _ _) fun _ => routine_nop

theorem installs_levelRetriggerMask : Installs [Isr.isr83] testIoapicLevelRetriggerMask := by
  refine installs_test rfl (Prog.uses_bind (routine_setIrqLine _ _) fun _ => ?_)
  refine Prog.uses_bind routine_nop fun _ => ?_
  refine Prog.uses_bind (routine_setMask _ _) fun _ => ?_
  refine Prog.uses_bind routine_nop fun _ => ?_
  exact Prog.uses_bind (routine_setIrqLine _ _) fun _ => routine_setMask _ _

theorem installs_edgeTmr : Installs [Isr.isr79] testIoapicEdgeTmr := by
  refine installs_test rfl (Prog.uses_bind routine_apicReadBit fun _ => ?_)
  exact Prog.uses_bind (routine_toggleIrqLine _) fun _ => routine_nop

theorem installs_levelTmr : Installs [Isr.isr79] testIoapicLevelTmr := by
  refine installs_test rfl (Prog.uses_bind routine_apicReadBit fun _ => ?_)
  exact Prog.uses_bind (routine_setIrqLine _ _) fun _ => routine_nop

/-- The tests with the second CPU store to their static first. -/
theorem installs_smp (trigMode : TriggerMode) (f : Remote) :
    Installs [Isr.isr79] (do
      store .gTmr79 (-1)
      handleIrqLocal 0x79 .isr79
      setIoapicRedir 0x0e 0x79 trigMode
      let _ ← apicReadBit apicTmr 0x79
      Prog.call (Cmd.smpCall 1 f)
      Prog.call (Cmd.spinWhile .gTmr79 (-1))) := by
  refine installs_routine_then (routine_call fun _ => rfl) fun _ => ?_
  refine installs_test rfl (Prog.uses_bind routine_apicReadBit fun _ => ?_)
  exact Prog.uses_bind (routine_call fun _ => rfl) fun _ => routine_call fun _ => rfl

/-- `test_ioapic` from its `irq_enable` up to the tests that need a second CPU. -/
def singleTests : IoapicProg Unit := do
  irqEnable
  ioapicRegVersion
  ioapicRegId
  ioapicArbitrationId
  testIoapicEdgeIntr
  testIoapicLevelIntr
  testIoapicSimultaneous
  testIoapicLevelCoalesce
  testIoapicLevelSequential
  testIoapicLevelRetrigger
  testIoapicEdgeMask
  testIoapicLevelMask
  testIoapicLevelRetriggerMask
  testIoapicEdgeTmr
  testIoapicLevelTmr
  testIoapicLevelTmr
  testIoapicEdgeTmr

def smpTests : IoapicProg Unit := do
  testIoapicEdgeTmrSmp
  testIoapicLevelTmrSmp
  testIoapicLevelTmrSmp
  testIoapicEdgeTmrSmp

theorem testIoapic_split : testIoapic = maskPicInterrupts.bind fun _ =>
    enableX2apicLocal.bind fun _ => singleTests.bind fun _ => numOnlineCpus.bind fun ncpus =>
      if ncpus > 1 then smpTests else .pure () := by
  simp only [singleTests, Prog.bind_eq, Prog.bind_assoc]
  rfl

/-- The handlers of `test_ioapic` on one CPU, in the order of its calls. -/
def singleHandlers : List Isr :=
  [.isr76, .isr77, .isr78, .isr66, .isr98, .isr99, .isr9a, .isr81, .isr82, .isr83, .isr79, .isr79,
    .isr79, .isr79]

theorem installs_singleTests : Installs singleHandlers singleTests := by
  refine installs_routine_then routine_irqEnable fun _ => ?_
  refine installs_routine_then (routine_readWriteRead 0x01 _) fun _ => ?_
  refine installs_routine_then (routine_readWriteRead 0x0 _) fun _ => ?_
  refine installs_routine_then routine_ioapicArbitrationId fun _ => ?_
  refine installs_then installs_edgeIntr (installs_then installs_levelIntr ?_)
  refine installs_then installs_simultaneous (installs_then installs_levelCoalesce ?_)
  refine installs_then installs_levelSequential (installs_then installs_levelRetrigger ?_)
  refine installs_then installs_edgeMask (installs_then installs_levelMask ?_)
  refine installs_then installs_levelRetriggerMask ?_
  exact installs_then installs_edgeTmr (installs_then installs_levelTmr
    (installs_then installs_levelTmr installs_edgeTmr))

theorem installs_smpTests : Installs (List.replicate 4 .isr79) smpTests :=
  installs_then (installs_smp .edge .toggleIrqLine0x0e)
    (installs_then (installs_smp .level .setIrqLine0x0e)
      (installs_then (installs_smp .level .setIrqLine0x0e)
        (installs_smp .edge .toggleIrqLine0x0e)))

/-- The handlers that one ioctl installs, with a second CPU or without. -/
def ioctlHandlers (smp : Bool) : List Isr :=
  singleHandlers ++ if smp then List.replicate 4 .isr79 else []

variable {tr : List (Prog.Event Cmd Cmd.Answer)}

/-- Nothing is written, or the APIC base as it was read with its x2APIC bit. -/
def SwitchesTo (tr : List (Prog.Event Cmd Cmd.Answer)) (l : List Note) : Prop :=
  l = [] ∨ ∃ a d : U32, ⟨.rdmsr msrIa32Apicbase, ((a, d) : U32 × U32)⟩ ∈ tr ∧
    l = [.wrmsr msrIa32Apicbase (a ||| (1 : U32) <<< 10) d]

theorem notes_enableX2apicLocal {x2apic : Bool} (h : enableX2apicLocal.Runs tr x2apic) :
    SwitchesTo tr (notes tr) := by
  obtain ⟨(c : U32), tr₁, rfl, h₁⟩ := Prog.runs_op.mp h
  change Prog.Runs (if c &&& (1 : U32) <<< 21 ≠ 0 then _ else _) tr₁ x2apic at h₁
  split_ifs at h₁
  · obtain ⟨⟨(a : U32), (d : U32)⟩, tr₂, rfl, h₂⟩ := Prog.runs_op.mp h₁
    obtain ⟨_, tr₃, rfl, h₃⟩ := Prog.runs_op.mp h₂
    obtain ⟨rfl, -⟩ := Prog.runs_pure.mp h₃
    exact .inr ⟨a, d, by simp, rfl⟩
  · obtain ⟨rfl, -⟩ := Prog.runs_pure.mp h₁
    exact .inl rfl

/-- The notes of every execution. The number of online CPUs is asked for once, and decides whether
the tests with a second one run. -/
theorem notes_testIoapic (h : testIoapic.Runs tr ()) :
    ∃ (switch : List Note) (ncpus : ℕ), SwitchesTo tr switch ∧
      notes tr = switch ++ installNotes singleHandlers ++ Note.online ncpus ::
        installNotes (if ncpus > 1 then List.replicate 4 .isr79 else []) := by
  rw [testIoapic_split] at h
  obtain ⟨tr₁, _, tr₂, rfl, h₁, h₂⟩ := Prog.runs_bind.mp h
  obtain ⟨tr₃, x2apic, tr₄, rfl, h₃, h₄⟩ := Prog.runs_bind.mp h₂
  obtain ⟨tr₅, _, tr₆, rfl, h₅, h₆⟩ := Prog.runs_bind.mp h₄
  obtain ⟨(ncpus : ℕ), tr₇, rfl, h₇⟩ := Prog.runs_call_bind.mp h₆
  have hmask : notes tr₁ = [] := installs_routine
    (Prog.uses_bind (routine_call fun _ => rfl) fun _ => routine_call fun _ => rfl) _ _ h₁
  have hsingle : notes tr₅ = installNotes singleHandlers := installs_singleTests _ _ h₅
  have hsmp : notes tr₇ = installNotes (if ncpus > 1 then List.replicate 4 .isr79 else []) := by
    split_ifs at h₇ ⊢
    · exact installs_smpTests _ _ h₇
    · obtain ⟨rfl, -⟩ := Prog.runs_pure.mp h₇
      rfl
  refine ⟨notes tr₃, ncpus, ?_, ?_⟩
  · refine (notes_enableX2apicLocal h₃).imp id fun ⟨a, d, hmem, hwrite⟩ => ⟨a, d, ?_, hwrite⟩
    simp [hmem]
  · have hanswer : notes (⟨.numOnlineCpus, ncpus⟩ :: tr₇) = .online ncpus :: notes tr₇ := rfl
    rw [notes_append, notes_append, notes_append, hmask, hsingle, hanswer, hsmp, List.nil_append,
      List.append_assoc]

end Tests

end PcmTest.Ioapic
