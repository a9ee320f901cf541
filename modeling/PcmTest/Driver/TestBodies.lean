import PcmTest.Driver.Ioctl
import PcmTest.Ioapic.Tests

/-!
# The test bodies of the pcm-unit driver

The tests of tsc.c, setjmp.c, msr.c and tsc_adjust.c as programs over the
instructions and kernel functions that they use, without their prints. The driver
is its entry with every test body in place of the call; only `test_kvm_clock`
stays one command.
-/

namespace PcmTest.Driver

open Theory

/-- The builds that the sources distinguish, with the address of `syscall_target`. -/
inductive Arch where
  | i386
  | x86_64 (syscallTarget : U64)
  deriving DecidableEq, Repr

/-- `setjmp` and `longjmp` are the assembly routines; `syscall` returns to `syscall_target`. -/
inductive CpuCmd where
  | rdtsc
  | rdtscp
  | cpuid (leaf : U32)
  | rdmsr (index : U32)
  | wrmsr (index : U32) (value : U64)
  | setjmp
  | longjmp (val : U32)
  | readCs
  | readSs
  | writeSs (val : BitVec 16)
  | pushf
  | syscall
  | popf
  deriving DecidableEq, Repr

/-- `cpuid` answers with `ebx`, `rdmsr` with the error code and the value, and `syscall` with
whether the mask of the flags spares the interrupt flag. -/
def CpuCmd.Answer : CpuCmd → Type
  | .rdtsc => U64
  | .rdtscp | .cpuid _ => U32
  | .rdmsr _ => U32 × U64
  | .readCs | .readSs => BitVec 16
  | .syscall => Bool
  | _ => Unit

instance : (c : CpuCmd) → Inhabited c.Answer
  | .rdtsc => inferInstanceAs (Inhabited U64)
  | .rdtscp | .cpuid _ => inferInstanceAs (Inhabited U32)
  | .rdmsr _ => inferInstanceAs (Inhabited (U32 × U64))
  | .readCs | .readSs => inferInstanceAs (Inhabited (BitVec 16))
  | .syscall => inferInstanceAs (Inhabited Bool)
  | .wrmsr _ _ | .setjmp | .longjmp _ | .writeSs _ | .pushf | .popf =>
    inferInstanceAs (Inhabited Unit)

abbrev CpuProg := Prog CpuCmd CpuCmd.Answer

def rdtsc : CpuProg U64 := Prog.call CpuCmd.rdtsc

def cpuid (leaf : U32) : CpuProg U32 := Prog.call (CpuCmd.cpuid leaf)

def rdmsr (index : U32) : CpuProg (U32 × U64) := Prog.call (CpuCmd.rdmsr index)

def wrmsr (index : U32) (value : U64) : CpuProg Unit := Prog.call (CpuCmd.wrmsr index value)

def msrIa32Tsc : U32 := 0x10
def ia32TscAdjust : U32 := 0x3b
def msrEfer : U32 := 0xc0000080
def msrStar : U32 := 0xc0000081
def msrLstar : U32 := 0xc0000082
def msrTscAux : U32 := 0xc0000103
def eferSce : U32 := 1

section Tsc

def testWrtsc (t1 : U64) : CpuProg Unit := do
  wrmsr msrIa32Tsc t1
  let _ ← rdtsc

def testRdtscp (aux : U64) : CpuProg Unit := do
  wrmsr msrTscAux aux
  let _ ← Prog.call CpuCmd.rdtscp

def testTsc : CpuProg Unit := do
  let _ ← rdtsc
  let _ ← rdtsc
  testWrtsc 0
  testWrtsc 100000000000
  testRdtscp 0
  testRdtscp 10
  testRdtscp 0x100

def testTscAdjust : CpuProg Unit := do
  let ebx ← cpuid 7
  if ebx &&& (1 : U32) <<< 1 ≠ 0 then do
    let _ ← rdmsr ia32TscAdjust
    let _ ← rdtsc
    wrmsr ia32TscAdjust 100000000000
    let _ ← rdtsc
    let _ ← rdmsr ia32TscAdjust
    wrmsr ia32TscAdjust 0
    let _ ← rdmsr ia32TscAdjust
    let _ ← rdtsc
    wrmsr msrIa32Tsc 100000000000
    let _ ← rdtsc
    let _ ← rdmsr ia32TscAdjust
  else
    pure ()

end Tsc

section Setjmp

/-- `test_setjmp` from a return of `setjmp` on, with `10 - i` rounds left. -/
def setjmpRounds : ℕ → CpuProg Unit
  | 0 => pure ()
  | left + 1 =>
    if left ≠ 0 then do
      Prog.call (CpuCmd.longjmp 1)
      setjmpRounds left
    else
      pure ()

def testSetjmp : CpuProg Unit := do
  Prog.call CpuCmd.setjmp
  setjmpRounds 10

end Setjmp

section Msr

/-- `struct msr_rw_info` without what only the report reads. -/
structure MsrRwInfo where
  index : U32
  value : U64
  deriving DecidableEq, Repr

def addr64 : U64 := 0x0000123456789abc

def msrInfo : Arch → List MsrRwInfo
  | .i386 => low ++ high
  | .x86_64 _ => low ++ ⟨msrEfer, 0xD00⟩ :: high
where
  low :=
    [⟨0x00000174, 0x1234⟩, ⟨0x00000175, addr64⟩, ⟨0x00000176, addr64⟩, ⟨0x000001a0, 0x400c51889⟩,
      ⟨0x00000277, 0x07070707⟩, ⟨0xc0000100, addr64⟩, ⟨0xc0000101, addr64⟩, ⟨0xc0000102, addr64⟩]
  high := [⟨msrLstar, addr64⟩, ⟨0xc0000083, addr64⟩, ⟨0xc0000084, 0xffffffff⟩]

/-- `none` is the returned `-1`. -/
def findMsrInfo (arch : Arch) (msrIndex : U32) : Option ℕ :=
  (msrInfo arch).findIdx? fun info => info.index = msrIndex

def testMsrRw (arch : Arch) (msrIndex : U32) (input : U64) : CpuProg Unit :=
  match findMsrInfo arch msrIndex with
  | none => pure ()
  | some _ => do
    wrmsr msrIndex input
    let _ ← rdmsr msrIndex

/-- The value of `MSR_EFER` that is written back is the error code of its read. -/
def testSyscallLazyLoad : Arch → CpuProg Unit
  | .i386 => pure ()
  | .x86_64 syscallTarget => do
    let cs ← (Prog.call CpuCmd.readCs : CpuProg (BitVec 16))
    let ss ← (Prog.call CpuCmd.readSs : CpuProg (BitVec 16))
    let r ← rdmsr msrEfer
    wrmsr msrEfer ((r.1 ||| eferSce).signExtend 64)
    wrmsr msrLstar syscallTarget
    wrmsr msrStar (cs.setWidth 64)
    Prog.call CpuCmd.pushf
    let _ ← Prog.call CpuCmd.syscall
    Prog.call CpuCmd.popf
    Prog.call (CpuCmd.writeSs ss)

def testMsr (arch : Arch) : CpuProg Unit := do
  let _ ← Prog.forEach (fun info => testMsrRw arch info.index info.value) (msrInfo arch)
  testSyscallLazyLoad arch

end Msr

end PcmTest.Driver
