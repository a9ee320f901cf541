import PcmTest.Driver.TestBodies

/-!
# The test bodies with their prints

Where the verdict of a test is at issue, its program prints and sees the status
of its MSR writes. Without both it is the test body that the driver runs.
-/

namespace PcmTest.Driver

open Theory

/-- An argument of `printk`, by the conversion that takes it. -/
inductive PrintArg where
  | int (v : U32)
  | long (v : U64)
  | str (s : String)
  deriving DecidableEq, Repr

abbrev Line := String × List PrintArg

/-- The commands of a test body, `wrmsrl_safe` with its status, and `printk`. -/
inductive ReportCmd where
  | cpu (c : CpuCmd)
  | wrmsrlSafe (index : U32) (value : U64)
  | printk (line : Line)
  deriving DecidableEq, Repr

/-- A status is 0 or the error code of a fault; `rdmsrl_safe` answers with it and the value. -/
def ReportCmd.Answer : ReportCmd → Type
  | .cpu c => c.Answer
  | .wrmsrlSafe _ _ => U32
  | .printk _ => Unit

instance ReportCmd.inhabitedAnswer : (c : ReportCmd) → Inhabited c.Answer
  | .cpu c => inferInstanceAs (Inhabited c.Answer)
  | .wrmsrlSafe _ _ => inferInstanceAs (Inhabited U32)
  | .printk _ => inferInstanceAs (Inhabited Unit)

abbrev ReportProg := Prog ReportCmd ReportCmd.Answer

abbrev ReportTrace := List (Prog.Event ReportCmd ReportCmd.Answer)

def onCpu (c : CpuCmd) : ReportProg c.Answer := Prog.call (ReportCmd.cpu c)

def rdmsrlSafe (index : U32) : ReportProg (U32 × U64) := onCpu (.rdmsr index)

def wrmsrlSafe (index : U32) (value : U64) : ReportProg U32 :=
  Prog.call (ReportCmd.wrmsrlSafe index value)

def printk (format : String) (args : List PrintArg) : ReportProg Unit :=
  Prog.call (ReportCmd.printk (format, args))

/-- A command without what only the report makes of it. -/
def unreported : (c : ReportCmd) → CpuProg c.Answer
  | .cpu c => Prog.call c
  | .wrmsrlSafe index value => do
    wrmsr index value
    pure (0 : U32)
  | .printk _ => pure ()

/-- The lines that a list of commands prints. -/
def lines (cmds : List ReportCmd) : List Line :=
  cmds.filterMap fun
    | .printk line => some line
    | _ => none

/-- A file of MSRs in which every access succeeds, and two segment registers. -/
structure MsrFile where
  msr : U32 → U64
  cs : BitVec 16
  ss : BitVec 16

def MsrFile.device : (c : ReportCmd) → MsrFile → c.Answer × MsrFile
  | .cpu (.rdmsr index), m => (((0, m.msr index) : U32 × U64), m)
  | .cpu .readCs, m => ((m.cs : BitVec 16), m)
  | .cpu .readSs, m => ((m.ss : BitVec 16), m)
  | .cpu (.writeSs val), m => ((), { m with ss := val })
  | .wrmsrlSafe index value, m => ((0 : U32), { m with msr := Function.update m.msr index value })
  | _, m => (default, m)

end PcmTest.Driver
