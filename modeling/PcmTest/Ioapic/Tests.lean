import PcmTest.Ioapic.Redir
import PcmTest.Theory.Program

/-!
# The I/O APIC tests of ioapic.c

Every function is a program over the accesses it makes: the index and data
registers of the I/O APIC, ports, the local APIC, the file's statics, and the
instructions that touch the interrupt flag. Between two of them an interrupt can
arrive. The prints and what only they read are left out.
-/

namespace PcmTest.Ioapic

open Theory

abbrev U16 := BitVec 16
abbrev U8 := BitVec 8

/-- The file's statics that a handler or a test reads. -/
inductive Var where
  | gIsr76
  | gIsr77
  | g78
  | g66
  | g66After78
  | gTmr79
  | gIsr98
  | gIsr99
  | gIsr9a
  | gIsr81
  | gIsr82
  | gIsr83
  deriving DecidableEq, Repr

/-- The interrupt handlers that `handle_irq_local` installs. -/
inductive Isr where
  | isr76
  | isr77
  | isr78
  | isr66
  | isr79
  | isr98
  | isr99
  | isr9a
  | isr81
  | isr82
  | isr83
  deriving DecidableEq, Repr

/-- The functions that a test sends to the second CPU. -/
inductive Remote where
  | toggleIrqLine0x0e
  | setIrqLine0x0e
  deriving DecidableEq, Repr

/-- One access of the code. `mmioWrite` and `mmioRead` take the offset from `g_ioapic`;
`spinWhile` is the loop that reads a static until it differs from `x`. -/
inductive Cmd where
  | mmioWrite (offset value : U32)
  | mmioRead (offset : U32)
  | out (value : U8) (port : U16)
  | apicRead (reg : U32)
  | apicWrite (reg value : U32)
  | cli
  | sti
  | hlt
  | nop
  | load (v : Var)
  | store (v : Var) (x : U32)
  | spinWhile (v : Var) (x : U32)
  | handleIrqLocal (vec : U32) (isr : Isr)
  | smpCall (cpu : ℕ) (f : Remote)
  | numOnlineCpus
  | cpuid (leaf : U32)
  | rdmsr (index : U32)
  | wrmsr (index a d : U32)
  deriving DecidableEq, Repr

/-- `cpuid` returns `ecx` and `rdmsr` the two halves. -/
def Cmd.Answer : Cmd → Type
  | .mmioRead _ | .apicRead _ | .load _ | .cpuid _ => U32
  | .numOnlineCpus => ℕ
  | .rdmsr _ => U32 × U32
  | _ => Unit

instance : (c : Cmd) → Inhabited c.Answer
  | .mmioRead _ | .apicRead _ | .load _ | .cpuid _ => inferInstanceAs (Inhabited U32)
  | .numOnlineCpus => inferInstanceAs (Inhabited ℕ)
  | .rdmsr _ => inferInstanceAs (Inhabited (U32 × U32))
  | .mmioWrite _ _ | .out _ _ | .apicWrite _ _ | .cli | .sti | .hlt | .nop | .store _ _
  | .spinWhile _ _ | .handleIrqLocal _ _ | .smpCall _ _ | .wrmsr _ _ _ =>
    inferInstanceAs (Inhabited Unit)

abbrev IoapicProg := Prog Cmd Cmd.Answer

def mmioWrite (offset value : U32) : IoapicProg Unit := Prog.call (Cmd.mmioWrite offset value)

def mmioRead (offset : U32) : IoapicProg U32 := Prog.call (Cmd.mmioRead offset)

def load (v : Var) : IoapicProg U32 := Prog.call (Cmd.load v)

def store (v : Var) (x : U32) : IoapicProg Unit := Prog.call (Cmd.store v x)

def irqDisable : IoapicProg Unit := Prog.call Cmd.cli

def irqEnable : IoapicProg Unit := Prog.call Cmd.sti

def nop : IoapicProg Unit := Prog.call Cmd.nop

def apicRead (reg : U32) : IoapicProg U32 := Prog.call (Cmd.apicRead reg)

def cpuid (leaf : U32) : IoapicProg U32 := Prog.call (Cmd.cpuid leaf)

def rdmsr (index : U32) : IoapicProg (U32 × U32) := Prog.call (Cmd.rdmsr index)

def numOnlineCpus : IoapicProg ℕ := Prog.call Cmd.numOnlineCpus

def handleIrqLocal (vec : U32) (isr : Isr) : IoapicProg Unit :=
  Prog.call (Cmd.handleIrqLocal vec isr)

/-- The offsets of the two registers that `g_ioapic` points to. -/
def indexOffset : U32 := 0
def dataOffset : U32 := 0x10

def ioapicReadReg (reg : U32) : IoapicProg U32 := do
  mmioWrite indexOffset reg
  mmioRead dataOffset

def ioapicWriteReg (reg value : U32) : IoapicProg Unit := do
  mmioWrite indexOffset reg
  mmioWrite dataOffset value

def ioapicWriteRedir (line : U32) (e : RedirEntry) : IoapicProg Unit := do
  ioapicWriteReg (0x10 + line * 2 + 0) e.lo
  ioapicWriteReg (0x10 + line * 2 + 1) e.hi

theorem uses_ioapicWriteRedir {P : Cmd → Prop} (h : ∀ offset value, P (.mmioWrite offset value))
    (line : U32) (e : RedirEntry) : (ioapicWriteRedir line e).Uses P := by
  have hreg : ∀ reg value, (ioapicWriteReg reg value).Uses P :=
    fun _ _ => ⟨h _ _, fun _ => ⟨h _ _, fun _ => trivial⟩⟩
  exact Prog.uses_bind (hreg _ _) fun _ => hreg _ _

def ioapicReadRedir (line : U32) : IoapicProg RedirEntry := do
  let lo ← ioapicReadReg (0x10 + line * 2 + 0)
  let hi ← ioapicReadReg (0x10 + line * 2 + 1)
  return RedirEntry.ofWords lo hi

def setMask (line mask : U32) : IoapicProg Unit := do
  let e ← ioapicReadRedir line
  ioapicWriteRedir line (e.setMask mask)

inductive TriggerMode where
  | edge
  | level
  deriving DecidableEq, Repr

def TriggerMode.bit : TriggerMode → BitVec 1
  | .edge => 0
  | .level => 1

def setIoapicRedir (line vec : U32) (trigMode : TriggerMode) : IoapicProg Unit :=
  ioapicWriteRedir line
    { vector := vec.setWidth 8
      deliveryMode := 0
      destMode := 0
      deliveryStatus := 0
      polarity := 0
      remoteIrr := 0
      trigMode := trigMode.bit
      mask := 0
      reserve := 0
      reserved := 0
      destId := 0 }

def setIrqLine (line val : U32) : IoapicProg Unit :=
  Prog.call (Cmd.out (val.setWidth 8) ((0x2000 + line).setWidth 16))

def toggleIrqLine (line : U32) : IoapicProg Unit := do
  setIrqLine line 1
  setIrqLine line 0

/-- `++v`. -/
def increment (v : Var) : IoapicProg Unit := do
  let x ← load v
  store v (x + 1)

def apicEoi : U32 := 0xb0
def apicTmr : U32 := 0x180

def eoi : IoapicProg Unit := Prog.call (Cmd.apicWrite apicEoi 0)

def apicReadBit (reg n : U32) : IoapicProg Bool := do
  let x ← apicRead (reg + n.sshiftRight 5 <<< 4)
  return (x &&& (1 : U32) <<< (n &&& 31)) != 0

def maskPicInterrupts : IoapicProg Unit := do
  Prog.call (Cmd.out 0xff 0x21)
  Prog.call (Cmd.out 0xff 0xa1)

def msrIa32Apicbase : U32 := 0x1b

/-- The switch of `apic_ops` is left out: the accesses go to the kernel's functions. -/
def enableX2apicLocal : IoapicProg Bool := do
  let c ← cpuid 1
  if c &&& (1 : U32) <<< 21 ≠ 0 then do
    let (a, d) ← rdmsr msrIa32Apicbase
    Prog.call (Cmd.wrmsr msrIa32Apicbase (a ||| 1 <<< 10) d)
    return true
  else
    return false

def ioapicRegVersion : IoapicProg Unit := do
  let dataRead ← ioapicReadReg 0x01
  ioapicWriteReg 0x01 (dataRead ^^^ 0xffffffff)
  let _ ← ioapicReadReg 0x01

def ioapicRegId : IoapicProg Unit := do
  let dataRead ← ioapicReadReg 0x0
  ioapicWriteReg 0x0 (dataRead ^^^ 0xffffffff)
  let _ ← ioapicReadReg 0x0

def ioapicArbitrationId : IoapicProg Unit := do
  ioapicWriteReg 0x0 0x0f000000
  let _ ← ioapicReadReg 0x2
  ioapicWriteReg 0x2 0x0
  let _ ← ioapicReadReg 0x2

section Handlers

/-- A handler that counts, lowers line 0x0e and acknowledges. -/
def lowerHandler (v : Var) : IoapicProg Unit := do
  increment v
  setIrqLine 0x0e 0
  eoi

def ioapicIsr76 : IoapicProg Unit := do
  increment .gIsr76
  eoi

def ioapicIsr77 : IoapicProg Unit := lowerHandler .gIsr77

def ioapicIsr78 : IoapicProg Unit := do
  increment .g78
  eoi

def ioapicIsr66 : IoapicProg Unit := do
  increment .g66
  let x ← load .g78
  if x ≠ 0 then increment .g66After78
  eoi

def ioapicIsr79 : IoapicProg Unit := do
  let bit ← apicReadBit apicTmr 0x79
  store .gTmr79 (if bit then 1 else 0)
  setIrqLine 0x0e 0
  eoi

def ioapicIsr98 : IoapicProg Unit := do
  increment .gIsr98
  let x ← load .gIsr98
  if x = 1 then do
    setIrqLine 0x0e 0
    setIrqLine 0x0e 1
  setIrqLine 0x0e 0
  eoi

def ioapicIsr99 : IoapicProg Unit := lowerHandler .gIsr99

def ioapicIsr9a : IoapicProg Unit := do
  increment .gIsr9a
  let x ← load .gIsr9a
  if x = 2 then setIrqLine 0x0e 0
  eoi

def ioapicIsr81 : IoapicProg Unit := lowerHandler .gIsr81

def ioapicIsr82 : IoapicProg Unit := lowerHandler .gIsr82

def ioapicIsr83 : IoapicProg Unit := do
  increment .gIsr83
  setMask 0x0e 1
  eoi

def Isr.body : Isr → IoapicProg Unit
  | .isr76 => ioapicIsr76
  | .isr77 => ioapicIsr77
  | .isr78 => ioapicIsr78
  | .isr66 => ioapicIsr66
  | .isr79 => ioapicIsr79
  | .isr98 => ioapicIsr98
  | .isr99 => ioapicIsr99
  | .isr9a => ioapicIsr9a
  | .isr81 => ioapicIsr81
  | .isr82 => ioapicIsr82
  | .isr83 => ioapicIsr83

/-- What the second CPU runs; the delay loop is left out. -/
def Remote.body : Remote → IoapicProg Unit
  | .toggleIrqLine0x0e => do
    irqDisable
    toggleIrqLine 0x0e
    irqEnable
  | .setIrqLine0x0e => do
    irqDisable
    setIrqLine 0x0e 1
    irqEnable

end Handlers

section Tests

def testIoapicEdgeIntr : IoapicProg Unit := do
  handleIrqLocal 0x76 .isr76
  setIoapicRedir 0x0e 0x76 .edge
  toggleIrqLine 0x0e
  nop

def testIoapicLevelIntr : IoapicProg Unit := do
  handleIrqLocal 0x77 .isr77
  setIoapicRedir 0x0e 0x77 .level
  setIrqLine 0x0e 1
  nop

def testIoapicSimultaneous : IoapicProg Unit := do
  handleIrqLocal 0x78 .isr78
  handleIrqLocal 0x66 .isr66
  setIoapicRedir 0x0e 0x78 .edge
  setIoapicRedir 0x0f 0x66 .edge
  irqDisable
  toggleIrqLine 0x0f
  toggleIrqLine 0x0e
  irqEnable
  nop

def testIoapicEdgeTmr : IoapicProg Unit := do
  handleIrqLocal 0x79 .isr79
  setIoapicRedir 0x0e 0x79 .edge
  let _ ← apicReadBit apicTmr 0x79
  toggleIrqLine 0x0e
  nop

def testIoapicLevelTmr : IoapicProg Unit := do
  handleIrqLocal 0x79 .isr79
  setIoapicRedir 0x0e 0x79 .level
  let _ ← apicReadBit apicTmr 0x79
  setIrqLine 0x0e 1
  nop

def testIoapicEdgeTmrSmp : IoapicProg Unit := do
  store .gTmr79 (-1)
  handleIrqLocal 0x79 .isr79
  setIoapicRedir 0x0e 0x79 .edge
  let _ ← apicReadBit apicTmr 0x79
  Prog.call (Cmd.smpCall 1 .toggleIrqLine0x0e)
  Prog.call (Cmd.spinWhile .gTmr79 (-1))

def testIoapicLevelTmrSmp : IoapicProg Unit := do
  store .gTmr79 (-1)
  handleIrqLocal 0x79 .isr79
  setIoapicRedir 0x0e 0x79 .level
  let _ ← apicReadBit apicTmr 0x79
  Prog.call (Cmd.smpCall 1 .setIrqLine0x0e)
  Prog.call (Cmd.spinWhile .gTmr79 (-1))

def testIoapicLevelCoalesce : IoapicProg Unit := do
  handleIrqLocal 0x98 .isr98
  setIoapicRedir 0x0e 0x98 .level
  setIrqLine 0x0e 1
  nop

def testIoapicLevelSequential : IoapicProg Unit := do
  handleIrqLocal 0x99 .isr99
  setIoapicRedir 0x0e 0x99 .level
  setIrqLine 0x0e 1
  setIrqLine 0x0e 1
  nop

/-- The rounds of `test_ioapic_level_retrigger` that are left. -/
def retriggerRounds : ℕ → IoapicProg Unit
  | 0 => pure ()
  | i + 1 => do
    let x ← load .gIsr9a
    if x = 2 then pure () else do
      irqEnable
      Prog.call Cmd.hlt
      irqDisable
      retriggerRounds i

def testIoapicLevelRetrigger : IoapicProg Unit := do
  handleIrqLocal 0x9a .isr9a
  setIoapicRedir 0x0e 0x9a .level
  irqDisable
  setIrqLine 0x0e 1
  retriggerRounds 10
  irqEnable

def testIoapicEdgeMask : IoapicProg Unit := do
  handleIrqLocal 0x81 .isr81
  setIoapicRedir 0x0e 0x81 .edge
  setMask 0x0e 1
  setIrqLine 0x0e 1
  setIrqLine 0x0e 0
  nop
  setMask 0x0e 0
  setIrqLine 0x0e 1
  nop

def testIoapicLevelMask : IoapicProg Unit := do
  handleIrqLocal 0x82 .isr82
  setIoapicRedir 0x0e 0x82 .level
  setMask 0x0e 1
  setIrqLine 0x0e 1
  nop
  setMask 0x0e 0
  nop

def testIoapicLevelRetriggerMask : IoapicProg Unit := do
  handleIrqLocal 0x83 .isr83
  setIoapicRedir 0x0e 0x83 .level
  setIrqLine 0x0e 1
  nop
  setMask 0x0e 0
  nop
  setIrqLine 0x0e 0
  setMask 0x0e 0

def testIoapic : IoapicProg Unit := do
  maskPicInterrupts
  let _ ← enableX2apicLocal
  irqEnable
  ioapicRegVersion
  ioapicRegId
  ioapicArbitrationId
  testIoapicEdgeIntr
  testIoapicLevelIntr
  testIoapicSimultaneous
  testIoapicLevelCoalesce
  testIoapicLevelSequential
  testIoapicLevelRetrigger
  testIoapicEdgeMask
  testIoapicLevelMask
  testIoapicLevelRetriggerMask
  testIoapicEdgeTmr
  testIoapicLevelTmr
  testIoapicLevelTmr
  testIoapicEdgeTmr
  let ncpus ← numOnlineCpus
  if ncpus > 1 then do
    testIoapicEdgeTmrSmp
    testIoapicLevelTmrSmp
    testIoapicLevelTmrSmp
    testIoapicEdgeTmrSmp

end Tests

end PcmTest.Ioapic
