import PcmTest.Driver.Report
import PcmTest.Theory.Lookup

/-!
# The verdicts of test_msr

Every row of `msr_info` is written, read back and compared. The word that is
compared with the expected value is the status of the read, and the last line is
printed in either case. The lazy loading test takes the same word for the
contents of `MSR_EFER`.
-/

namespace PcmTest.Driver

open Theory

/-- `struct msr_rw_info` with all its fields. -/
structure MsrRwRow extends MsrRwInfo where
  name : String
  expected : U64
  deriving DecidableEq, Repr

/-- `msr_info`. -/
def msrTable : Arch → List MsrRwRow
  | .i386 => low ++ high
  | .x86_64 _ => low ++ ⟨⟨msrEfer, 0xD00⟩, "MSR_EFER", 0xD00⟩ :: high
where
  low :=
    [⟨⟨0x00000174, 0x1234⟩, "IA32_SYSENTER_CS", 0x1234⟩,
      ⟨⟨0x00000175, addr64⟩, "MSR_IA32_SYSENTER_ESP", addr64⟩,
      ⟨⟨0x00000176, addr64⟩, "IA32_SYSENTER_EIP", addr64⟩,
      ⟨⟨0x000001a0, 0x400c51889⟩, "MSR_IA32_MISC_ENABLE", 0x400c51889⟩,
      ⟨⟨0x00000277, 0x07070707⟩, "MSR_IA32_CR_PAT", 0x07070707⟩,
      ⟨⟨0xc0000100, addr64⟩, "MSR_FS_BASE", addr64⟩,
      ⟨⟨0xc0000101, addr64⟩, "MSR_GS_BASE", addr64⟩,
      ⟨⟨0xc0000102, addr64⟩, "MSR_KERNEL_GS_BASE", addr64⟩]
  high :=
    [⟨⟨msrLstar, addr64⟩, "MSR_LSTAR", addr64⟩, ⟨⟨0xc0000083, addr64⟩, "MSR_CSTAR", addr64⟩,
      ⟨⟨0xc0000084, 0xffffffff⟩, "MSR_SYSCALL_MASK", 0xffffffff⟩]

theorem msrTable_toMsrRwInfo (arch : Arch) :
    (msrTable arch).map MsrRwRow.toMsrRwInfo = msrInfo arch := by
  cases arch <;> rfl

def mismatchFormat : String := "testing %s: output = 0x%x:0x%x expected = 0x%x:0x%x\n"

def succeedFormat : String := "testing %s succeed\n"

namespace Report

/-- `none` is the returned `-1`. -/
def findMsrInfo (table : List MsrRwRow) (msrIndex : U32) : Option ℕ :=
  table.findIdx? fun row => row.index = msrIndex

/-- A word as the two arguments that show it. -/
def halves (v : U64) : List PrintArg := [.int ((v >>> 32).setWidth 32), .int (v.setWidth 32)]

def testMsrRw (table : List MsrRwRow) (msrIndex : U32) (input expected : U64) : ReportProg Unit :=
  match (findMsrInfo table msrIndex).bind (table[·]?) with
  | none => printk "couldn't find name for msr # 0x%x, skipping\n" [.int msrIndex]
  | some info => do
    let _ ← wrmsrlSafe msrIndex input
    let answer ← rdmsrlSafe msrIndex
    -- the status, an `int`; the value that was read stays in `p`
    let r : U64 := answer.1.signExtend 64
    if expected ≠ r then
      printk mismatchFormat (.str info.name :: halves r ++ halves expected)
    else
      pure ()
    printk succeedFormat [.str info.name]

def testRow (table : List MsrRwRow) (row : MsrRwRow) : ReportProg Unit :=
  testMsrRw table row.index row.value row.expected

def testSyscallLazyLoad : Arch → ReportProg Unit
  | .i386 => pure ()
  | .x86_64 syscallTarget => do
    let cs ← (onCpu .readCs : ReportProg (BitVec 16))
    let ss ← (onCpu .readSs : ReportProg (BitVec 16))
    let r ← rdmsrlSafe msrEfer
    let _ ← wrmsrlSafe msrEfer ((r.1 ||| eferSce).signExtend 64)
    let _ ← wrmsrlSafe msrLstar syscallTarget
    let _ ← wrmsrlSafe msrStar (cs.setWidth 64)
    onCpu .pushf
    let _ ← onCpu .syscall
    onCpu .popf
    onCpu (.writeSs ss)
    printk "MSR_*STAR eager loading \n" []

/-- `test_msr` on any table. -/
def testMsr (table : List MsrRwRow) (arch : Arch) : ReportProg Unit := do
  let _ ← Prog.forEach (testRow table) table
  testSyscallLazyLoad arch

section Verdicts

variable {table : List MsrRwRow} {row : MsrRwRow}

/-- With distinct indexes the lookup finds the row that is tested. -/
theorem findMsrInfo_row (hdistinct : (table.map fun x => x.index).Nodup) (hrow : row ∈ table) :
    (findMsrInfo table row.index).bind (table[·]?) = some row :=
  findIdx?_key hdistinct hrow

/-- The commands of a row's round, from the answers that it gets. -/
def rowTrace (row : MsrRwRow) (status : U32) (answer : U32 × U64) : ReportTrace :=
  [⟨.wrmsrlSafe row.index row.value, status⟩, ⟨.cpu (.rdmsr row.index), answer⟩] ++
    (if row.expected ≠ answer.1.signExtend 64 then
      [⟨.printk (mismatchFormat, .str row.name ::
        halves (answer.1.signExtend 64) ++ halves row.expected), ()⟩] else []) ++
    [⟨.printk (succeedFormat, [.str row.name]), ()⟩]

theorem runs_testRow (hdistinct : (table.map fun x => x.index).Nodup) (hrow : row ∈ table)
    {tr : ReportTrace} {u : Unit} :
    (testRow table row).Runs tr u ↔ ∃ status answer, tr = rowTrace row status answer := by
  rw [testRow, testMsrRw, findMsrInfo_row hdistinct hrow]
  constructor
  · intro h
    obtain ⟨w, tr₁, rfl, h₁⟩ := Prog.runs_op.mp h
    obtain ⟨r, tr₂, rfl, h₂⟩ := Prog.runs_op.mp h₁
    refine ⟨w, r, congrArg _ (congrArg _ ?_)⟩
    -- the status decides whether the middle line is printed
    change (if row.expected ≠ BitVec.signExtend 64 r.1 then _ else _ : ReportProg Unit).Runs
      tr₂ u at h₂
    split_ifs at h₂ ⊢ with hr
    · obtain ⟨x, tr₃, rfl, h₃⟩ := Prog.runs_op.mp h₂
      obtain ⟨y, tr₄, rfl, h₄⟩ := Prog.runs_op.mp h₃
      rw [(Prog.runs_pure.mp h₄).1]
      rfl
    · obtain ⟨x, tr₃, rfl, h₃⟩ := Prog.runs_op.mp h₂
      rw [(Prog.runs_pure.mp h₃).1]
      rfl
  · rintro ⟨w, r, rfl⟩
    refine Prog.runs_op.mpr ⟨w, _, rfl, Prog.runs_op.mpr ⟨r, _, rfl, ?_⟩⟩
    change (if row.expected ≠ BitVec.signExtend 64 r.1 then _ else _ : ReportProg Unit).Runs _ u
    split_ifs with hr
    · exact Prog.runs_op.mpr ⟨(), _, rfl, Prog.runs_op.mpr ⟨(), _, rfl, .pure u⟩⟩
    · exact Prog.runs_op.mpr ⟨(), _, rfl, .pure u⟩

/-- The test prints the line of a row that failed. -/
def ReportsMismatch (row : MsrRwRow) (tr : ReportTrace) : Prop :=
  ∃ args, ReportCmd.printk (mismatchFormat, .str row.name :: args) ∈ tr.map Sigma.fst

def ReportsSucceed (row : MsrRwRow) (tr : ReportTrace) : Prop :=
  ReportCmd.printk (succeedFormat, [.str row.name]) ∈ tr.map Sigma.fst

/-- The statuses of the writes of a trace. -/
def writes (tr : ReportTrace) : List U32 :=
  tr.filterMap fun
    | ⟨.wrmsrlSafe _ _, status⟩ => some status
    | _ => none

/-- The statuses and the values of the reads. -/
def reads (tr : ReportTrace) : List (U32 × U64) :=
  tr.filterMap fun
    | ⟨.cpu (.rdmsr _), answer⟩ => some answer
    | _ => none

/-- The write or the read faulted, or another value than the expected one was read. -/
def Failed (row : MsrRwRow) (tr : ReportTrace) : Prop :=
  (∃ status ∈ writes tr, status ≠ 0) ∨
    ∃ answer ∈ reads tr, answer.1 ≠ 0 ∨ answer.2 ≠ row.expected

structure VerdictRight (row : MsrRwRow) (tr : ReportTrace) : Prop where
  mismatch : ReportsMismatch row tr ↔ Failed row tr
  succeed : ReportsSucceed row tr → ¬ ReportsMismatch row tr

/-- The row expects 0, and 0 is what a working register gives back. -/
structure ReadsZero (row : MsrRwRow) (tr : ReportTrace) : Prop where
  expected : row.expected = 0
  write : ∀ status ∈ writes tr, status = 0
  read : ∀ answer ∈ reads tr, answer = (0, 0)

section RowTrace

variable {status : U32} {answer : U32 × U64}

theorem reportsSucceed_rowTrace : ReportsSucceed row (rowTrace row status answer) := by
  simp [ReportsSucceed, rowTrace]

theorem reportsMismatch_rowTrace :
    ReportsMismatch row (rowTrace row status answer) ↔ row.expected ≠ answer.1.signExtend 64 := by
  by_cases h : row.expected = answer.1.signExtend 64
  · simp [ReportsMismatch, rowTrace, h, mismatchFormat, succeedFormat]
  · simp [ReportsMismatch, rowTrace, h]

theorem writes_rowTrace : writes (rowTrace row status answer) = [status] := by
  unfold rowTrace
  split_ifs <;> rfl

theorem reads_rowTrace : reads (rowTrace row status answer) = [answer] := by
  unfold rowTrace
  split_ifs <;> rfl

theorem verdictRight_rowTrace :
    VerdictRight row (rowTrace row status answer) ↔
      row.expected = answer.1.signExtend 64 ∧
        (status = 0 ∧ answer.1 = 0 ∧ answer.2 = row.expected) := by
  have hfailed : Failed row (rowTrace row status answer) ↔
      ¬ (status = 0 ∧ answer.1 = 0 ∧ answer.2 = row.expected) := by
    rw [Failed, writes_rowTrace, reads_rowTrace]
    simp only [List.mem_singleton, exists_eq_left]
    tauto
  constructor
  · rintro ⟨hmismatch, hsucceed⟩
    have hnot := hsucceed reportsSucceed_rowTrace
    refine ⟨?_, ?_⟩
    · rwa [reportsMismatch_rowTrace, ne_eq, not_not] at hnot
    · rwa [hmismatch, hfailed, not_not] at hnot
  · rintro ⟨hequal, hfine⟩
    have hnot : ¬ ReportsMismatch row (rowTrace row status answer) := by
      rw [reportsMismatch_rowTrace, ne_eq, not_not]
      exact hequal
    constructor
    · rw [hfailed]
      exact ⟨fun h => absurd h hnot, fun h => absurd hfine h⟩
    · exact fun _ => hnot

/-- The verdict on a row is right exactly when the row expects 0 and reads 0. -/
theorem verdictRight_iff (hdistinct : (table.map fun x => x.index).Nodup) (hrow : row ∈ table)
    {tr : ReportTrace} {u : Unit} (hrun : (testRow table row).Runs tr u) :
    VerdictRight row tr ↔ ReadsZero row tr := by
  obtain ⟨status, answer, rfl⟩ := (runs_testRow hdistinct hrow).mp hrun
  rw [verdictRight_rowTrace]
  constructor
  · rintro ⟨hequal, hstatus, hread, hvalue⟩
    have hzero : row.expected = 0 := by
      rw [hequal, hread]
      rfl
    constructor
    · exact hzero
    · simpa [writes_rowTrace] using hstatus
    · rw [hzero] at hvalue
      simpa [reads_rowTrace] using Prod.ext hread hvalue
  · rintro ⟨hexpected, hwrite, hread⟩
    have hstatus : status = 0 := by simpa [writes_rowTrace] using hwrite
    have hanswer : answer = (0, 0) := by simpa [reads_rowTrace] using hread
    rw [hexpected, hanswer]
    exact ⟨rfl, hstatus, rfl, rfl⟩

end RowTrace

end Verdicts

section Table

variable {table : List MsrRwRow} {arch : Arch} {tr : ReportTrace}

/-- The rounds of the loop in an execution of `test_msr`, one for each row. -/
structure LoopRounds (table : List MsrRwRow) (tr : ReportTrace)
    (rounds : List (Prog.Round MsrRwRow ReportCmd ReportCmd.Answer Unit)) : Prop where
  items : rounds.map Prog.Round.item = table
  runs : ∀ x ∈ rounds, (testRow table x.item).Runs x.trace x.result
  trace : rounds.flatMap Prog.Round.trace <+: tr

theorem exists_loopRounds {u : Unit} (hrun : (testMsr table arch).Runs tr u) :
    ∃ rounds, LoopRounds table tr rounds := by
  obtain ⟨tr₁, us, tr₂, rfl, hloop, -⟩ := Prog.runs_bind.mp hrun
  obtain ⟨rounds, hitems, -, rfl, hruns⟩ := Prog.runs_forEach hloop
  exact ⟨rounds, hitems, hruns, List.prefix_append _ _⟩

/-- Whatever the registers answer: the verdict on a row is right exactly when the row expects 0
and its accesses succeed and read 0. -/
theorem testMsr_verdicts (hdistinct : (table.map fun x => x.index).Nodup)
    (hrun : (testMsr table arch).Runs tr ()) :
    (∃ rounds, LoopRounds table tr rounds) ∧
      ∀ rounds, LoopRounds table tr rounds →
        ∀ x ∈ rounds, VerdictRight x.item x.trace ↔ ReadsZero x.item x.trace := by
  refine ⟨exists_loopRounds hrun, ?_⟩
  intro rounds hrounds x hx
  have hrow : x.item ∈ table := by
    rw [← hrounds.items]
    exact List.mem_map_of_mem hx
  exact verdictRight_iff hdistinct hrow (hrounds.runs x hx)

end Table

section LazyLoad

/-- What `syscall` needs, when the registers held `m` before the test. -/
structure SyscallReady (syscallTarget : U64) (m s : MsrFile) : Prop where
  efer : s.msr msrEfer = m.msr msrEfer ||| eferSce.setWidth 64
  star : (s.msr msrStar).extractLsb' 32 16 = m.cs
  lstar : s.msr msrLstar = syscallTarget
  others : ∀ index, index ≠ msrEfer → index ≠ msrStar → index ≠ msrLstar →
    s.msr index = m.msr index

/-- The registers at the `syscall` instruction: `MSR_EFER` holds the status and the selector is
in the low half of `MSR_STAR`. -/
def lazyLoaded (syscallTarget : U64) (m : MsrFile) : MsrFile :=
  { m with
    msr := Function.update (Function.update (Function.update m.msr msrEfer 1) msrLstar
      syscallTarget) msrStar (m.cs.setWidth 64) }

theorem issued_syscall (syscallTarget : U64) (m s : MsrFile) :
    (ReportCmd.cpu .syscall, s) ∈
        (testSyscallLazyLoad (.x86_64 syscallTarget)).issued MsrFile.device m ↔
      s = lazyLoaded syscallTarget m := by
  let word : U64 := ((0 : U32) ||| eferSce).signExtend 64
  let m₁ : MsrFile := { m with msr := Function.update m.msr msrEfer word }
  let m₂ : MsrFile := { m with msr := Function.update m₁.msr msrLstar syscallTarget }
  let m₃ : MsrFile := { m with msr := Function.update m₂.msr msrStar (m.cs.setWidth 64) }
  have hissued : (testSyscallLazyLoad (.x86_64 syscallTarget)).issued MsrFile.device m =
      [(.cpu .readCs, m), (.cpu .readSs, m), (.cpu (.rdmsr msrEfer), m),
        (.wrmsrlSafe msrEfer word, m), (.wrmsrlSafe msrLstar syscallTarget, m₁),
        (.wrmsrlSafe msrStar (m.cs.setWidth 64), m₂), (.cpu .pushf, m₃), (.cpu .syscall, m₃),
        (.cpu .popf, m₃), (.cpu (.writeSs m.ss), m₃),
        (.printk ("MSR_*STAR eager loading \n", []), m₃)] := rfl
  have hm₃ : m₃ = lazyLoaded syscallTarget m := by
    have hword : word = 1 := by decide
    simp only [m₃, m₂, m₁, hword, lazyLoaded]
  rw [hissued, hm₃]
  simp

theorem syscallReady_lazyLoaded (syscallTarget : U64) (m : MsrFile) :
    SyscallReady syscallTarget m (lazyLoaded syscallTarget m) ↔
      (m.msr msrEfer = 0 ∨ m.msr msrEfer = 1) ∧ m.cs = 0 := by
  have hefer : (lazyLoaded syscallTarget m).msr msrEfer = 1 := by
    simp [lazyLoaded, msrEfer, msrLstar, msrStar]
  have hstar : (lazyLoaded syscallTarget m).msr msrStar = m.cs.setWidth 64 := by
    simp [lazyLoaded]
  have hfield : (m.cs.setWidth 64 : U64).extractLsb' 32 16 = 0 := by
    apply BitVec.eq_of_getLsbD_eq
    intro i hi
    have hhigh : m.cs.getLsbD (32 + i) = false := BitVec.getLsbD_of_ge _ _ (by omega)
    simp [BitVec.getLsbD_extractLsb', BitVec.getLsbD_setWidth, hhigh]
  constructor
  · rintro ⟨hprior, hcs, -, -⟩
    rw [hstar, hfield] at hcs
    rw [hefer] at hprior
    refine ⟨?_, hcs.symm⟩
    have hnat : 1 = (m.msr msrEfer).toNat ||| 1 := congrArg BitVec.toNat hprior
    have hle : (m.msr msrEfer).toNat ≤ 1 := by
      rw [hnat]
      exact Nat.left_le_or
    rcases Nat.le_one_iff_eq_zero_or_eq_one.mp hle with h | h
    · exact .inl (BitVec.eq_of_toNat_eq h)
    · exact .inr (BitVec.eq_of_toNat_eq h)
  · rintro ⟨hprior, hcs⟩
    constructor
    · rw [hefer]
      rcases hprior with h | h <;> rw [h] <;> rfl
    · rw [hstar, hfield, hcs]
    · simp [lazyLoaded, msrLstar, msrStar]
    · intro index hne hne' hne''
      simp [lazyLoaded, hne, hne', hne'']

/-- The registers are ready for `syscall` exactly when `MSR_EFER` had no bit but `SCE` and the
code segment is the null selector. -/
theorem syscall_ready_iff (syscallTarget : U64) (m : MsrFile) :
    (∀ s, (ReportCmd.cpu .syscall, s) ∈
        (testSyscallLazyLoad (.x86_64 syscallTarget)).issued MsrFile.device m →
      SyscallReady syscallTarget m s) ↔
    (m.msr msrEfer = 0 ∨ m.msr msrEfer = 1) ∧ m.cs = 0 := by
  simp only [issued_syscall, forall_eq]
  exact syscallReady_lazyLoaded syscallTarget m

/-- A kernel in long mode: `LME`, `LMA` and `NXE` are lost. -/
def longMode : MsrFile := ⟨Function.update (fun _ => 0) msrEfer 0xd01, 0x10, 0x18⟩

theorem syscall_not_ready :
    ¬ ∀ (syscallTarget : U64) (m s : MsrFile), (ReportCmd.cpu .syscall, s) ∈
        (testSyscallLazyLoad (.x86_64 syscallTarget)).issued MsrFile.device m →
      SyscallReady syscallTarget m s := by
  intro h
  have hready := (syscall_ready_iff 0 longMode).mp (h 0 longMode)
  exact absurd hready.2 (by decide)

end LazyLoad

section Unreported

theorem msrTable_distinct (arch : Arch) : ((msrTable arch).map fun x => x.index).Nodup := by
  cases arch with
  | i386 => decide
  | x86_64 target =>
    exact (by decide : ((msrTable (.x86_64 0)).map fun x => x.index).Nodup)

theorem findMsrInfo_msrTable (arch : Arch) (msrIndex : U32) :
    findMsrInfo (msrTable arch) msrIndex = Driver.findMsrInfo arch msrIndex := by
  rw [Driver.findMsrInfo, ← msrTable_toMsrRwInfo, List.findIdx?_map]
  rfl

theorem testRow_unreported {arch : Arch} {row : MsrRwRow} (hrow : row ∈ msrTable arch) :
    (testRow (msrTable arch) row).expand unreported =
      Driver.testMsrRw arch row.index row.value := by
  have hfind := findMsrInfo_row (msrTable_distinct arch) hrow
  rw [testRow, testMsrRw, hfind]
  obtain ⟨k, hk, -⟩ := Option.bind_eq_some_iff.mp hfind
  rw [Driver.testMsrRw, ← findMsrInfo_msrTable, hk]
  apply congrArg (Prog.op _)
  funext x
  apply congrArg (Prog.op _)
  funext r
  change Prog.expand unreported (if row.expected ≠ BitVec.signExtend 64 r.1 then _ else _) = _
  split_ifs <;> rfl

/-- Without the report this is the test body of the driver. -/
theorem testMsr_unreported (arch : Arch) :
    (testMsr (msrTable arch) arch).expand unreported = Driver.testMsr arch := by
  have hloop : (Prog.forEach (testRow (msrTable arch)) (msrTable arch)).expand unreported =
      Prog.forEach (fun info => Driver.testMsrRw arch info.index info.value) (msrInfo arch) := by
    rw [Prog.expand_forEach, ← msrTable_toMsrRwInfo]
    exact (Prog.forEach_map_congr fun row hrow => (testRow_unreported hrow).symm).symm
  have hlazy : (testSyscallLazyLoad arch).expand unreported = Driver.testSyscallLazyLoad arch := by
    cases arch <;> rfl
  rw [testMsr, Prog.bind_eq, Prog.expand_bind, hloop, hlazy]
  rfl

end Unreported

section Shipped

theorem testMsr_verdicts_shipped : ∃ tr rounds, LoopRounds (msrTable .i386) tr rounds ∧
    ∀ x ∈ rounds, VerdictRight x.item x.trace ↔ ReadsZero x.item x.trace := by
  obtain ⟨tr, u, hrun⟩ := (testMsr (msrTable .i386) .i386).exists_runs
  obtain ⟨⟨rounds, hrounds⟩, hverdicts⟩ := testMsr_verdicts (msrTable_distinct .i386) hrun
  exact ⟨tr, rounds, hrounds, hverdicts rounds hrounds⟩

/-- Every access succeeds and every register gives back what was written to it, so that 0x1234 is
read from `IA32_SYSENTER_CS`. -/
theorem misreports_sysenter : ∃ tr rounds, (testMsr (msrTable .i386) .i386).Runs tr () ∧
    LoopRounds (msrTable .i386) tr rounds ∧ ∃ x ∈ rounds, x.item.index = 0x174 ∧
      x.item.expected = 0x1234 ∧ writes x.trace = [0] ∧ reads x.trace = [(0, 0x1234)] ∧
        ¬ VerdictRight x.item x.trace := by
  let rounds : List (Prog.Round MsrRwRow ReportCmd ReportCmd.Answer Unit) :=
    (msrTable .i386).map fun row => ⟨row, rowTrace row 0 (0, row.value), ()⟩
  have hitems : rounds.map Prog.Round.item = msrTable .i386 := rfl
  have hruns : ∀ x ∈ rounds, (testRow (msrTable .i386) x.item).Runs x.trace x.result := by
    intro x hx
    obtain ⟨row, hrow, rfl⟩ := List.mem_map.mp hx
    exact (runs_testRow (msrTable_distinct .i386) hrow).mpr ⟨_, _, rfl⟩
  have hloop := Prog.forEach_runs hruns
  rw [hitems] at hloop
  have hrun : (testMsr (msrTable .i386) .i386).Runs (rounds.flatMap Prog.Round.trace ++ []) () :=
    Prog.runs_bind.mpr ⟨_, _, _, rfl, hloop, .pure ()⟩
  refine ⟨_, rounds, hrun, ⟨hitems, hruns, List.prefix_append _ _⟩, _, .head _, rfl, rfl, rfl,
    rfl, ?_⟩
  rw [verdictRight_rowTrace]
  exact fun h => absurd h.1 (by decide)

theorem testMsr_misreports :
    ¬ ∀ (table : List MsrRwRow) (arch : Arch), (table.map fun x => x.index).Nodup →
      ∀ tr, (testMsr table arch).Runs tr () → ∀ rounds, LoopRounds table tr rounds →
        ∀ x ∈ rounds, VerdictRight x.item x.trace := by
  intro h
  obtain ⟨tr, rounds, hrun, hrounds, x, hx, -, -, -, -, hwrong⟩ := misreports_sysenter
  exact hwrong (h _ _ (msrTable_distinct .i386) tr hrun rounds hrounds x hx)

end Shipped

end Report

end PcmTest.Driver
