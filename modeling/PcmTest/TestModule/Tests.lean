import PcmTest.Driver.Report

/-!
# The tests of test_module

A load of the module runs the test that its parameter names, and returns 0
whatever the test says. The tests are programs over the instructions, registers
and kernel calls that they use. The two tests of the processor trace MSRs go down
one table and stop at the first access that faults; the module runs both, drops
what they return, and the report tells how far each of them came.
-/

namespace PcmTest.TestModule

open Theory Driver

/-- An allocation, by its number: no two have the same one. -/
abbrev Block := ℕ

/-- The instructions, registers and kernel calls of the module, and the accesses to its static
`vmxon_region`. -/
inductive TestCmd where
  | kmalloc (size : ℕ)
  | kfree (p : Block)
  | storeRegion (p : Option Block)
  | loadRegion
  | rdmsrSafe (msr : U32)
  | wrmsrSafe (msr low high : U32)
  | rdmsrl (msr : U32)
  | wrmsrl (msr : U32) (value : U64)
  | readCr0
  | writeCr0 (value : U64)
  | readCr4
  | writeCr4 (value : U64)
  | vmxon (region : Option Block)
  | vmxoff
  | rdpmc (counter : ℕ)
  | invd
  | getsec (eax : U32)
  | monitor
  | mwait (eax ecx : U64)
  | xsaves (area : Option Block) (low high : U32)
  | cpuidCount (op count : U32)
  | xsetbv (index eax edx : U32)
  | printk (line : Line)
  deriving DecidableEq, Repr

/-- `none` is a null pointer. A safe access answers with its error and the value, `vmxon` with
whether it entered VMX operation, and `cpuid` with `eax` and `edx`. -/
def TestCmd.Answer : TestCmd → Type
  | .kmalloc _ | .loadRegion => Option Block
  | .rdmsrSafe _ => U32 × U64
  | .wrmsrSafe _ _ _ => U32
  | .rdmsrl _ | .readCr0 | .readCr4 | .rdpmc _ => U64
  | .vmxon _ => Bool
  | .cpuidCount _ _ => U32 × U32
  | _ => Unit

instance TestCmd.inhabitedAnswer : (c : TestCmd) → Inhabited c.Answer
  | .kmalloc _ | .loadRegion => inferInstanceAs (Inhabited (Option Block))
  | .rdmsrSafe _ => inferInstanceAs (Inhabited (U32 × U64))
  | .wrmsrSafe _ _ _ => inferInstanceAs (Inhabited U32)
  | .rdmsrl _ | .readCr0 | .readCr4 | .rdpmc _ => inferInstanceAs (Inhabited U64)
  | .vmxon _ => inferInstanceAs (Inhabited Bool)
  | .cpuidCount _ _ => inferInstanceAs (Inhabited (U32 × U32))
  | .kfree _ | .storeRegion _ | .wrmsrl _ _ | .writeCr0 _ | .writeCr4 _ | .vmxoff | .invd
  | .getsec _ | .monitor | .mwait _ _ | .xsaves _ _ _ | .xsetbv _ _ _ | .printk _ =>
    inferInstanceAs (Inhabited Unit)

abbrev TestProg := Prog TestCmd TestCmd.Answer

abbrev TestTrace := List (Prog.Event TestCmd TestCmd.Answer)

def printk (format : String) (args : List PrintArg) : TestProg Unit :=
  Prog.call (TestCmd.printk (format, args))

def kmalloc (size : ℕ) : TestProg (Option Block) := Prog.call (TestCmd.kmalloc size)

def loadRegion : TestProg (Option Block) := Prog.call TestCmd.loadRegion

def rdmsrSafe (msr : U32) : TestProg (U32 × U64) := Prog.call (TestCmd.rdmsrSafe msr)

def wrmsrSafe (msr low high : U32) : TestProg U32 := Prog.call (TestCmd.wrmsrSafe msr low high)

def rdmsrl (msr : U32) : TestProg U64 := Prog.call (TestCmd.rdmsrl msr)

def wrmsrl (msr : U32) (value : U64) : TestProg Unit := Prog.call (TestCmd.wrmsrl msr value)

def readCr0 : TestProg U64 := Prog.call TestCmd.readCr0

def readCr4 : TestProg U64 := Prog.call TestCmd.readCr4

/-- The log level that `KERN_ERR` puts before a format. -/
def kernErr : String := "\x013"

section Vmx

def msrIa32FeatureControl : U32 := 0x3a
def featureControlLocked : U64 := 1 <<< 0
def featureControlVmxonEnabledOutsideSmx : U64 := 1 <<< 2
def x86Cr4Vmxe : U64 := 1 <<< 13
def x86Cr4Osxsave : U64 := 1 <<< 18
def x86Cr0Cd : U64 := 1 <<< 30

/-- What `VMXON` needs in the feature control MSR. -/
def testBits : U64 := featureControlLocked ||| featureControlVmxonEnabledOutsideSmx

def enableVmxon (old : U64) : TestProg Unit :=
  if old &&& testBits ≠ testBits then wrmsrl msrIa32FeatureControl (old ||| testBits) else pure ()

/-- The print does not depend on the flags that `VMXON` leaves. -/
def testVmxon (addr : Option Block) : TestProg Unit := do
  let old ← rdmsrl msrIa32FeatureControl
  enableVmxon old
  let cr4 ← readCr4
  Prog.call (TestCmd.writeCr4 (cr4 ||| x86Cr4Vmxe))
  let _ ← (Prog.call (TestCmd.vmxon addr) : TestProg Bool)
  printk "vmxon succeed\n" []

def testVmxoff : TestProg Unit := Prog.call TestCmd.vmxoff

end Vmx

section Pt

/-- The table that both tests of test_pt.c go down, with the number as their prints have it. -/
def ptMsrs : List (String × U32) :=
  [("0x570", 0x570), ("0x571", 0x571), ("0x572", 0x572), ("0x560", 0x560), ("0x561", 0x561),
    ("0x580", 0x580), ("0x581", 0x581), ("0x582", 0x582), ("0x583", 0x583), ("0x584", 0x584),
    ("0x585", 0x585), ("0x586", 0x586), ("0x587", 0x587)]

/-- The error code of an access, if it faults. -/
def errorOf (err : U32) : Option U32 := if err ≠ 0 then some err else none

/-- Announce one MSR and access it. -/
def ptAccess (verb : String) (access : U32 → TestProg U32) (row : String × U32) :
    TestProg (Option U32) := do
  printk ("test " ++ verb ++ " " ++ row.1 ++ "\n") []
  let err ← access row.2
  pure (errorOf err)

/-- `goto fail` leaves with the MSR and the error. -/
def ptReport (verb success : String) : Option ((String × U32) × U32) → TestProg ℤ
  | none => do
    printk success []
    pure 0
  | some (row, err) => do
    printk (verb ++ " 0x%x err %d\n") [.int row.2, .int err]
    pure 1

def ptSweep (verb success : String) (access : U32 → TestProg U32) : TestProg ℤ :=
  (Prog.untilError (ptAccess verb access) ptMsrs).bind (ptReport verb success)

def ptRead (msr : U32) : TestProg U32 := do
  let r ← rdmsrSafe msr
  pure r.1

def ptWrite (msr : U32) : TestProg U32 := wrmsrSafe msr 0 0

def testPtRdmsr : TestProg ℤ := ptSweep "rdmsr" "rdmsr for PT msrs success\n" ptRead

def testPtWrmsr : TestProg ℤ := ptSweep "wrmsr" "wrmsr success for PT MSRs\n" ptWrite

end Pt

section Mpx

def msrIa32Bndcfgs : U32 := 0xd90

def printError (name : String) (err : U32) : TestProg Unit :=
  if err ≠ 0 then printk (kernErr ++ "%s return err %d\n") [.str name, .int err] else pure ()

def testMpxRdmsr : TestProg U32 := do
  let r ← rdmsrSafe msrIa32Bndcfgs
  printk "return value of rdmsr_safe is %d\n" [.int r.1]
  printError "test_mpx_rdmsr" r.1
  pure r.1

def testMpxWrmsr : TestProg U32 := do
  let err ← wrmsrSafe msrIa32Bndcfgs 0 0
  printError "test_mpx_wrmsr" err
  pure err

end Mpx

section Instructions

def reportCounter (ret : U64) : TestProg Unit :=
  if ret ≠ 0 then printk "rdpmc fail with value %llu" [.long ret] else pure ()

def asmRdpmc (counter : ℕ) : TestProg U64 := Prog.call (TestCmd.rdpmc counter)

/-- The last print does not depend on the counters. -/
def testRdpmc : TestProg Unit := do
  let _ ← Prog.forEach (fun i => (asmRdpmc i).bind reportCounter) [0, 1, 2, 3]
  printk "rdpmc test PASS!\n" []

def testInvd : TestProg Unit := do
  Prog.call TestCmd.invd
  printk "invd executed\n" []

def testGetsec : TestProg Unit := do
  Prog.call (TestCmd.getsec 0)
  printk "getsec executed\n" []

def testMwait : TestProg Unit := do
  Prog.call (TestCmd.mwait 0xf 0)
  printk "mwait executed\n" []

def testMonitor : TestProg Unit := do
  Prog.call TestCmd.monitor
  printk "monitor executed\n" []

/-- The register goes through a `u32`. -/
def testAccessCr0 : TestProg Unit := do
  let cr0 ← readCr0
  Prog.call (TestCmd.writeCr0 ((cr0.setWidth 32).setWidth 64 ||| x86Cr0Cd))
  printk "read write cr0 succeeded.\n" []

def testAccessCr4 : TestProg Unit := do
  let cr4 ← readCr4
  Prog.call (TestCmd.writeCr4 ((cr4.setWidth 32).setWidth 64 ||| x86Cr4Osxsave))
  printk "read write cr4 succeeded.\n" []

end Instructions

section Xsave

def xstateMask : U64 := 1
def xcrXfeatureEnabledMask : U32 := 0
def xstateCpuid : U32 := 0xd

/-- The area is not freed. -/
def testXsaves : TestProg Unit := do
  let fx ← kmalloc 0x440
  Prog.call (TestCmd.xsaves fx (xstateMask.setWidth 32) ((xstateMask >>> 32).setWidth 32))
  printk "xsaves is executed.\n" []

def printPair (eax edx : U32) : TestProg Unit := do
  printk "eax %d" [.int eax]
  printk "edx %d" [.int edx]

def testXsetbv : TestProg Unit := do
  let r ← (Prog.call (TestCmd.cpuidCount xstateCpuid 0) : TestProg (U32 × U32))
  printk "Begin to test legal xsetbv:\n" []
  printPair r.1 r.2
  Prog.call (TestCmd.xsetbv xcrXfeatureEnabledMask r.1 r.2)
  printk "Legal xsetbv test is executed.\n" []
  printk "Begin to test illegal xsetbv:\n" []
  printPair r.1 (r.2 + 1)
  Prog.call (TestCmd.xsetbv xcrXfeatureEnabledMask r.1 (r.2 + 1))
  printk "Illegal xsetbv test is executed.\n" []

end Xsave

section Module

def vmxonCase : TestProg Unit := do
  let p ← kmalloc 0x1000
  Prog.call (TestCmd.storeRegion p)
  let region ← loadRegion
  testVmxon region

def ptCase : TestProg Unit := do
  let _ ← testPtRdmsr
  let _ ← testPtWrmsr

def mpxCase : TestProg Unit := do
  printk (kernErr ++ "test_mpx\n") []
  let _ ← testMpxRdmsr
  let _ ← testMpxWrmsr

/-- The arms of `switch (tc_no)`. -/
def testCase (tcNo : ℤ) : TestProg Unit :=
  match tcNo with
  | 1 => vmxonCase
  | 2 => testVmxoff
  | 3 => ptCase
  | 4 => testRdpmc
  | 5 => testInvd
  | 6 => testGetsec
  | 7 => testMonitor
  | 8 => testMwait
  | 9 => mpxCase
  | 10 => testXsaves
  | 11 => testXsetbv
  | 12 => testAccessCr0
  | 13 => testAccessCr4
  | _ => printk "Invalid tc_no %d\n" [.int (BitVec.ofInt 32 tcNo)]

def initTestMode (tcNo : ℤ) : TestProg ℤ := do
  printk "tc_no is %d\n" [.int (BitVec.ofInt 32 tcNo)]
  testCase tcNo
  pure 0

def freeRegion (region : Option Block) : TestProg Unit :=
  match region with
  | none => pure ()
  | some p => Prog.call (TestCmd.kfree p)

def exitTestMode : TestProg Unit := do
  printk "test_module cleanup\n" []
  let region ← loadRegion
  freeRegion region

end Module

section PtReport

/-- What a load does to be seen: a line that it prints, or a safe MSR access with its error. -/
inductive PtEvent where
  | print (line : Line)
  | read (msr err : U32)
  | write (msr low high err : U32)
  deriving DecidableEq

def events (tr : TestTrace) : List PtEvent :=
  tr.filterMap fun
    | ⟨.printk line, _⟩ => some (.print line)
    | ⟨.rdmsrSafe msr, r⟩ => some (.read msr (show U32 × U64 from r).1)
    | ⟨.wrmsrSafe msr low high, err⟩ => some (.write msr low high err)
    | _ => none

@[simp] theorem events_append (tr₁ tr₂ : TestTrace) :
    events (tr₁ ++ tr₂) = events tr₁ ++ events tr₂ := List.filterMap_append

/-- One row of the table: the MSR is announced, and then accessed. -/
def announced (verb : String) (kind : U32 → U32 → PtEvent) (row : String × U32) (err : U32) :
    List PtEvent :=
  [.print ("test " ++ verb ++ " " ++ row.1 ++ "\n", []), kind row.2 err]

/-- How far a sweep came: the rows that passed, and the row that faulted with its error. -/
structure PtOutcome where
  passed : List (String × U32)
  stop : Option ((String × U32) × U32)

/-- The rows are those of the table, and a sweep that stops has not been through with it. -/
def PtOutcome.Fits (o : PtOutcome) : Prop :=
  match o.stop with
  | none => o.passed = ptMsrs
  | some (row, err) => err ≠ 0 ∧ o.passed ++ [row] <+: ptMsrs

/-- What a sweep does in order. The last line gives the verdict. -/
def PtOutcome.events (o : PtOutcome) (verb success : String) (kind : U32 → U32 → PtEvent) :
    List PtEvent :=
  o.passed.flatMap (fun row => announced verb kind row 0) ++
    match o.stop with
    | none => [.print (success, [])]
    | some (row, err) =>
      announced verb kind row err ++ [.print (verb ++ " 0x%x err %d\n", [.int row.2, .int err])]

section Sweep

variable {verb success : String} {access : U32 → TestProg U32} {kind : U32 → U32 → PtEvent}
  {tr : TestTrace}

theorem runs_ptAccess
    (haccess : ∀ msr tr err, (access msr).Runs tr err → events tr = [kind msr err])
    {row : String × U32} {r : Option U32} (h : (ptAccess verb access row).Runs tr r) :
    ∃ err, r = errorOf err ∧ events tr = announced verb kind row err := by
  obtain ⟨⟨⟩, tr₁, rfl, hrest⟩ := Prog.runs_call_bind.mp h
  obtain ⟨tr₂, err, tr₃, rfl, hacc, hlast⟩ := Prog.runs_bind.mp hrest
  obtain ⟨rfl, rfl⟩ := Prog.runs_pure.mp hlast
  rw [List.append_nil]
  exact ⟨err, rfl, congrArg (_ :: ·) (haccess _ _ _ hacc)⟩

theorem errorOf_eq_none {err : U32} (h : none = errorOf err) : err = 0 := by
  by_contra hne
  rw [errorOf, if_pos hne] at h
  cases h

theorem errorOf_eq_some {err e : U32} (h : some e = errorOf err) : err = e ∧ e ≠ 0 := by
  rw [errorOf] at h
  split_ifs at h with hne
  cases h
  exact ⟨rfl, hne⟩

/-- The rows that a sweep passes. -/
theorem sweep_passed
    (haccess : ∀ msr tr err, (access msr).Runs tr err → events tr = [kind msr err])
    (passed : List ((String × U32) × TestTrace))
    (h : ∀ x ∈ passed, (ptAccess verb access x.1).Runs x.2 none) :
    events (passed.flatMap Prod.snd) =
      (passed.map Prod.fst).flatMap fun row => announced verb kind row 0 := by
  induction passed with
  | nil => rfl
  | cons x passed ih =>
    obtain ⟨hx, hrest⟩ := List.forall_mem_cons.mp h
    obtain ⟨err, hnone, hevents⟩ := runs_ptAccess haccess hx
    rw [errorOf_eq_none hnone] at hevents
    rw [List.flatMap_cons, events_append, hevents, ih hrest, List.map_cons, List.flatMap_cons]

theorem runs_ptSweep
    (haccess : ∀ msr tr err, (access msr).Runs tr err → events tr = [kind msr err]) {r : ℤ}
    (h : (ptSweep verb success access).Runs tr r) :
    ∃ o : PtOutcome, o.Fits ∧ events tr = o.events verb success kind := by
  obtain ⟨tr₁, stop, tr₂, rfl, hsweep, hreport⟩ := Prog.runs_bind.mp h
  obtain ⟨passed, hpassed, hend⟩ := Prog.runs_untilError hsweep
  have hevents := sweep_passed haccess passed hpassed
  rcases hend with ⟨rfl, hall, rfl⟩ | ⟨row, e, last, rest, rfl, hrows, hlast, rfl⟩
  · obtain ⟨⟨⟩, tr₃, rfl, hpure⟩ := Prog.runs_call_bind.mp hreport
    rw [(Prog.runs_pure.mp hpure).1, events_append, hevents]
    exact ⟨⟨passed.map Prod.fst, none⟩, hall.symm, rfl⟩
  · obtain ⟨⟨⟩, tr₃, rfl, hpure⟩ := Prog.runs_call_bind.mp hreport
    obtain ⟨err, hsome, hevent⟩ := runs_ptAccess haccess hlast
    obtain ⟨rfl, hne⟩ := errorOf_eq_some hsome
    refine ⟨⟨passed.map Prod.fst, some (row, err)⟩, ⟨hne, rest, ?_⟩, ?_⟩
    · rw [hrows, List.append_assoc]
      rfl
    · rw [(Prog.runs_pure.mp hpure).1, events_append, events_append, hevents, hevent,
        List.append_assoc]
      rfl

end Sweep

theorem runs_ptRead {msr : U32} {tr : TestTrace} {err : U32} (h : (ptRead msr).Runs tr err) :
    events tr = [.read msr err] := by
  obtain ⟨r, tr', rfl, hpure⟩ := Prog.runs_call_bind.mp h
  obtain ⟨rfl, rfl⟩ := Prog.runs_pure.mp hpure
  rfl

theorem runs_ptWrite {msr : U32} {tr : TestTrace} {err : U32} (h : (ptWrite msr).Runs tr err) :
    events tr = [.write msr 0 0 err] := by
  rw [Prog.runs_call h]
  rfl

/-- A load with the processor trace test returns 0, whatever faults. It reads down the table and
then writes zeros down the table, each up to the first fault. Every access comes right after the
line that announces it, and a report names the MSR that faulted with its error. -/
theorem pt_load_report (tr : TestTrace) (ret : ℤ) (h : (initTestMode 3).Runs tr ret) :
    ret = 0 ∧ ∃ reads writes : PtOutcome, reads.Fits ∧ writes.Fits ∧
      events tr = .print ("tc_no is %d\n", [.int 3]) ::
        (reads.events "rdmsr" "rdmsr for PT msrs success\n" .read ++
          writes.events "wrmsr" "wrmsr success for PT MSRs\n" (fun msr => .write msr 0 0)) := by
  obtain ⟨⟨⟩, tr₁, rfl, hcase⟩ := Prog.runs_call_bind.mp h
  obtain ⟨tr₂, ⟨⟩, tr₃, rfl, hpt, hpure⟩ := Prog.runs_bind.mp hcase
  obtain ⟨rfl, rfl⟩ := Prog.runs_pure.mp hpure
  obtain ⟨tr₄, r, tr₅, rfl, hread, hrest⟩ := Prog.runs_bind.mp hpt
  obtain ⟨tr₆, r', tr₇, rfl, hwrite, hlast⟩ := Prog.runs_bind.mp hrest
  obtain ⟨rfl, -⟩ := Prog.runs_pure.mp hlast
  obtain ⟨reads, hreads, hevents⟩ := runs_ptSweep (fun _ _ _ => runs_ptRead) hread
  obtain ⟨writes, hwrites, hevents'⟩ := runs_ptSweep (fun _ _ _ => runs_ptWrite) hwrite
  refine ⟨rfl, reads, writes, hreads, hwrites, ?_⟩
  rw [← hevents, ← hevents', ← events_append, List.append_nil, List.append_nil]
  rfl

/-- A guest whose reads from 0x560 on and whose writes all fault. -/
def injectGp : (c : TestCmd) → Unit → c.Answer × Unit
  | .rdmsrSafe msr, u => (((if msr < 0x570 then 0xfffffffb else 0, 0) : U32 × U64), u)
  | .wrmsrSafe _ _ _, u => ((0xfffffffb : U32), u)
  | c, u => ((default : c.Answer), u)

theorem pt_load_report_gp :
    let tr := (initTestMode 3).log injectGp ()
    (initTestMode 3).Runs tr 0 ∧
      (0 : ℤ) = 0 ∧ ∃ reads writes : PtOutcome, reads.Fits ∧ writes.Fits ∧
        events tr = .print ("tc_no is %d\n", [.int 3]) ::
          (reads.events "rdmsr" "rdmsr for PT msrs success\n" .read ++
            writes.events "wrmsr" "wrmsr success for PT MSRs\n" (fun msr => .write msr 0 0)) := by
  intro tr
  have h : (initTestMode 3).Runs tr 0 := (initTestMode 3).runs_log injectGp ()
  exact ⟨h, pt_load_report tr 0 h⟩

example : events ((initTestMode 3).log injectGp ()) =
    [.print ("tc_no is %d\n", [.int 3]), .print ("test rdmsr 0x570\n", []), .read 0x570 0,
      .print ("test rdmsr 0x571\n", []), .read 0x571 0, .print ("test rdmsr 0x572\n", []),
      .read 0x572 0, .print ("test rdmsr 0x560\n", []), .read 0x560 0xfffffffb,
      .print ("rdmsr 0x%x err %d\n", [.int 0x560, .int 0xfffffffb]),
      .print ("test wrmsr 0x570\n", []), .write 0x570 0 0 0xfffffffb,
      .print ("wrmsr 0x%x err %d\n", [.int 0x570, .int 0xfffffffb])] := by
  decide +kernel

end PtReport

end PcmTest.TestModule
