import PcmTest.Theory.Program
import Mathlib.Data.BitVec

/-!
# The ioctl entry of the two drivers

`pcm_cdev_ioctl` checks the fields of the command word, brackets one switch over
the test bodies by hypercalls 102 and 103, and keeps interrupts off meanwhile.
The focus_test and the pcm-unit driver share the function up to the largest
number and the arms of the switch. An arm without `break` falls into the next.
-/

namespace PcmTest.Driver

open Theory

abbrev U32 := BitVec 32
abbrev U64 := BitVec 64

def einval : ℤ := 22
def efault : ℤ := 14

def iocWrite : U32 := 1
def iocRead : U32 := 2

def iocDir (cmd : U32) : U32 := (cmd >>> 30) &&& 0x3
def iocType (cmd : U32) : U32 := (cmd >>> 8) &&& 0xff
def iocNr (cmd : U32) : U32 := cmd &&& 0xff
def iocSize (cmd : U32) : U32 := (cmd >>> 16) &&& 0x3fff

/-- The kernel's `_IO`: a command word without direction and size. -/
def io (type nr : U32) : U32 := type <<< 8 ||| nr

/-- `'k'`. -/
def pcmTestIocMagic : U32 := 0x6b

inductive Verify where
  | read
  | write
  deriving DecidableEq, Repr

/-- What the entry asks of the processor, the kernel and the test bodies `T`. -/
inductive IoctlCmd (T : Type) where
  | accessOk (type : Verify) (addr : U64) (size : U32)
  | localIrqDisable
  | localIrqEnable
  | hypercall (nr : U32)
  | test (t : T)
  deriving DecidableEq, Repr

/-- Only `access_ok` has an answer that the entry uses. -/
def IoctlCmd.Answer {T : Type} : IoctlCmd T → Type
  | .accessOk _ _ _ => Bool
  | _ => Unit

instance {T : Type} : (c : IoctlCmd T) → Inhabited c.Answer
  | .accessOk _ _ _ => inferInstanceAs (Inhabited Bool)
  | .localIrqDisable | .localIrqEnable | .hypercall _ | .test _ => inferInstanceAs (Inhabited Unit)

abbrev IoctlProg (T : Type) := Prog (IoctlCmd T) IoctlCmd.Answer

abbrev IoctlTrace (T : Type) := List (Prog.Event (IoctlCmd T) IoctlCmd.Answer)

/-- One `case` of the switch. -/
structure SwitchArm (T : Type) where
  code : U32
  test : T
  breaks : Bool

section Entry

variable {T : Type}

def accessOk (type : Verify) (addr : U64) (size : U32) : IoctlProg T Bool :=
  Prog.call (IoctlCmd.accessOk type addr size)

def localIrqDisable : IoctlProg T Unit := Prog.call IoctlCmd.localIrqDisable

def localIrqEnable : IoctlProg T Unit := Prog.call IoctlCmd.localIrqEnable

def hypercall (nr : U32) : IoctlProg T Unit := Prog.call (IoctlCmd.hypercall nr)

/-- Execute arms from the first one on, up to a `break` or the end of the switch. -/
def runArms : List (SwitchArm T) → IoctlProg T Unit
  | [] => pure ()
  | arm :: arms => do
    Prog.call (IoctlCmd.test arm.test)
    if arm.breaks then pure () else runArms arms

/-- `switch (cmd)`: enter at the matching arm; the `default` arm is empty. -/
def switch (cmd : U32) : List (SwitchArm T) → IoctlProg T Unit
  | [] => pure ()
  | arm :: arms => if cmd = arm.code then runArms (arm :: arms) else switch cmd arms

/-- The access check by the direction bits: `err` is the negated `access_ok`. -/
def checkAccess (cmd : U32) (arg : U64) : IoctlProg T Bool :=
  if iocDir cmd &&& iocRead ≠ 0 then do
    let ok ← accessOk .write arg (iocSize cmd)
    pure !ok
  else if iocDir cmd &&& iocWrite ≠ 0 then do
    let ok ← accessOk .read arg (iocSize cmd)
    pure !ok
  else
    pure false

/-- The body of `pcm_cdev_ioctl`, with the limit and the arms that tell the drivers apart. -/
def cdevIoctl (maxNr : U32) (arms : List (SwitchArm T)) (cmd : U32) (arg : U64) :
    IoctlProg T ℤ :=
  if iocType cmd ≠ pcmTestIocMagic then
    pure (-einval)
  else if iocNr cmd > maxNr then
    pure (-einval)
  else do
    let err ← checkAccess cmd arg
    if err then
      pure (-efault)
    else do
      localIrqDisable
      hypercall 102
      switch cmd arms
      hypercall 103
      localIrqEnable
      pure 0

/-- One call from user space. -/
structure IoctlCall where
  cmd : U32
  arg : U64
  deriving DecidableEq, Repr

/-- A sequence of calls of one driver's entry, with the list of their results. -/
def ioctls (ioctl : U32 → U64 → IoctlProg T ℤ) (calls : List IoctlCall) : IoctlProg T (List ℤ) :=
  Prog.forEach (fun call => ioctl call.cmd call.arg) calls

def hypercalls (tr : IoctlTrace T) : List U32 :=
  tr.filterMap fun
    | ⟨.hypercall nr, _⟩ => some nr
    | _ => none

/-- The test bodies that were executed, in order. -/
def testsRun (tr : IoctlTrace T) : List T :=
  tr.filterMap fun
    | ⟨.test t, _⟩ => some t
    | _ => none

def testEvent (t : T) : Prog.Event (IoctlCmd T) IoctlCmd.Answer := ⟨.test t, ()⟩

/-- What an accepted call does around the commands of its switch. -/
def bracket (body : IoctlTrace T) : IoctlTrace T :=
  ⟨.localIrqDisable, ()⟩ :: ⟨.hypercall 102, ()⟩ ::
    (body ++ [⟨.hypercall 103, ()⟩, ⟨.localIrqEnable, ()⟩])

/-- The tests that control reaches from the first arm on. -/
def armTests : List (SwitchArm T) → List T
  | [] => []
  | arm :: arms => arm.test :: if arm.breaks then [] else armTests arms

def switchTests (cmd : U32) : List (SwitchArm T) → List T
  | [] => []
  | arm :: arms => if cmd = arm.code then armTests (arm :: arms) else switchTests cmd arms

/-- The checks of type and number that come before the access check. -/
def FieldsOk (maxNr cmd : U32) : Prop := iocType cmd = pcmTestIocMagic ∧ iocNr cmd ≤ maxNr

def IsAccessOk : IoctlCmd T → Prop
  | .accessOk _ _ _ => True
  | _ => False

/-- The executions of one call: it is rejected with an error before the bracket, for its
fields or by an access check that only a direction asks for, or it is accepted and runs the
tests of its switch inside the bracket. -/
inductive CallTrace (maxNr : U32) (arms : List (SwitchArm T)) (cmd : U32) :
    IoctlTrace T → ℤ → Prop
  | rejected {pre : IoctlTrace T} {err : ℤ} (hpre : ∀ e ∈ pre, IsAccessOk e.1) (herr : err < 0)
      (hwhy : FieldsOk maxNr cmd → iocDir cmd ≠ 0) : CallTrace maxNr arms cmd pre err
  | accepted {pre : IoctlTrace T} (hpre : ∀ e ∈ pre, IsAccessOk e.1) (hok : FieldsOk maxNr cmd) :
      CallTrace maxNr arms cmd (pre ++ bracket ((switchTests cmd arms).map testEvent)) 0

theorem runs_runArms {arms : List (SwitchArm T)} {tr : IoctlTrace T} {u : Unit}
    (h : (runArms arms).Runs tr u) : tr = (armTests arms).map testEvent := by
  induction arms generalizing tr with
  | nil => exact (Prog.runs_pure.mp h).1
  | cons arm arms ih =>
    obtain ⟨x, tr', rfl, hrest⟩ := Prog.runs_op.mp h
    cases hbreaks : arm.breaks with
    | true =>
      rw [hbreaks] at hrest
      obtain ⟨rfl, -⟩ := Prog.runs_pure.mp hrest
      rw [armTests, hbreaks]
      rfl
    | false =>
      rw [hbreaks] at hrest
      rw [ih hrest, armTests, hbreaks]
      rfl

theorem runs_switch {cmd : U32} {arms : List (SwitchArm T)} {tr : IoctlTrace T} {u : Unit}
    (h : (switch cmd arms).Runs tr u) : tr = (switchTests cmd arms).map testEvent := by
  induction arms with
  | nil => exact (Prog.runs_pure.mp h).1
  | cons arm arms ih =>
    rw [switch] at h
    rw [switchTests]
    split_ifs at h ⊢
    · exact runs_runArms h
    · exact ih h

theorem runs_checkAccess {cmd : U32} {arg : U64} {tr : IoctlTrace T} {err : Bool}
    (h : (checkAccess cmd arg).Runs tr err) : ∀ e ∈ tr, IsAccessOk e.1 := by
  have huses : (checkAccess cmd arg : IoctlProg T Bool).Uses IsAccessOk := by
    rw [checkAccess]
    split_ifs
    · exact ⟨trivial, fun _ => trivial⟩
    · exact ⟨trivial, fun _ => trivial⟩
    · trivial
  exact huses.of_runs h

theorem checkAccess_none {cmd : U32} {arg : U64} (h : iocDir cmd = 0) :
    (checkAccess cmd arg : IoctlProg T Bool) = pure false := by
  rw [checkAccess, h, if_neg (by decide), if_neg (by decide)]

theorem callTrace_of_runs {maxNr : U32} {arms : List (SwitchArm T)} {cmd : U32} {arg : U64}
    {tr : IoctlTrace T} {r : ℤ} (h : (cdevIoctl maxNr arms cmd arg).Runs tr r) :
    CallTrace maxNr arms cmd tr r := by
  rw [cdevIoctl] at h
  split_ifs at h with htype hnr
  · obtain ⟨rfl, rfl⟩ := Prog.runs_pure.mp h
    exact .rejected (by simp) (by decide) fun hok => absurd hok.1 htype
  · obtain ⟨rfl, rfl⟩ := Prog.runs_pure.mp h
    exact .rejected (by simp) (by decide) fun hok => absurd hnr (BitVec.not_lt.mpr hok.2)
  · obtain ⟨pre, err, rest, rfl, hcheck, hrest⟩ := Prog.runs_bind.mp h
    have hpre := runs_checkAccess hcheck
    cases err with
    | true =>
      obtain ⟨rfl, rfl⟩ := Prog.runs_pure.mp hrest
      rw [List.append_nil]
      refine .rejected hpre (by decide) fun _ hdir => ?_
      rw [checkAccess_none hdir] at hcheck
      exact Bool.noConfusion (Prog.runs_pure.mp hcheck).2
    | false =>
      have hok : FieldsOk maxNr cmd := ⟨not_ne_iff.mp htype, BitVec.not_lt.mp hnr⟩
      obtain ⟨⟨⟩, tr₁, rfl, h₁⟩ := Prog.runs_call_bind.mp hrest
      obtain ⟨⟨⟩, tr₂, rfl, h₂⟩ := Prog.runs_call_bind.mp h₁
      obtain ⟨body, ⟨⟩, tr₃, rfl, hbody, h₃⟩ := Prog.runs_bind.mp h₂
      obtain ⟨⟨⟩, tr₄, rfl, h₄⟩ := Prog.runs_call_bind.mp h₃
      obtain ⟨⟨⟩, tr₅, rfl, h₅⟩ := Prog.runs_call_bind.mp h₄
      obtain ⟨rfl, rfl⟩ := Prog.runs_pure.mp h₅
      rw [runs_switch hbody]
      exact .accepted hpre hok

@[simp] theorem testsRun_append (tr₁ tr₂ : IoctlTrace T) :
    testsRun (tr₁ ++ tr₂) = testsRun tr₁ ++ testsRun tr₂ := List.filterMap_append

@[simp] theorem hypercalls_append (tr₁ tr₂ : IoctlTrace T) :
    hypercalls (tr₁ ++ tr₂) = hypercalls tr₁ ++ hypercalls tr₂ := List.filterMap_append

@[simp] theorem testsRun_testEvents (ts : List T) : testsRun (ts.map testEvent) = ts := by
  induction ts with
  | nil => rfl
  | cons t ts ih => exact congrArg (t :: ·) ih

@[simp] theorem hypercalls_testEvents (ts : List T) : hypercalls (ts.map testEvent) = [] := by
  induction ts with
  | nil => rfl
  | cons t ts ih => exact ih

@[simp] theorem testsRun_bracket (body : IoctlTrace T) :
    testsRun (bracket body) = testsRun body := by
  have h : testsRun (bracket body) = testsRun body ++ [] := testsRun_append body _
  rw [h, List.append_nil]

@[simp] theorem hypercalls_bracket (body : IoctlTrace T) :
    hypercalls (bracket body) = 102 :: (hypercalls body ++ [103]) :=
  congrArg (102 :: ·) (hypercalls_append body _)

theorem testsRun_accessOk {tr : IoctlTrace T} (h : ∀ e ∈ tr, IsAccessOk e.1) :
    testsRun tr = [] := by
  apply List.filterMap_eq_nil_iff.mpr
  rintro ⟨c, x⟩ he
  cases c with
  | accessOk type addr size => rfl
  | _ => exact (h _ he).elim

theorem hypercalls_accessOk {tr : IoctlTrace T} (h : ∀ e ∈ tr, IsAccessOk e.1) :
    hypercalls tr = [] := by
  apply List.filterMap_eq_nil_iff.mpr
  rintro ⟨c, x⟩ he
  cases c with
  | accessOk type addr size => rfl
  | _ => exact (h _ he).elim

end Entry

namespace PcmUnit

/-- The test bodies of the pcm-unit driver. -/
inductive Test where
  | tsc
  | setjmp
  | msr
  | kvmClock
  | ioapic
  | tscAdjust
  deriving DecidableEq, Repr

def tscRw : U32 := io pcmTestIocMagic 1
def setjmp : U32 := io pcmTestIocMagic 2
def msrRw : U32 := io pcmTestIocMagic 3
def kvmclockTest : U32 := io pcmTestIocMagic 4
def ioapicTest : U32 := io pcmTestIocMagic 5
def tscAdjust : U32 := io pcmTestIocMagic 6
def pcmTestIocMaxnr : U32 := 6

/-- The arms in the order of the source; the last three have no `break`. -/
def arms : List (SwitchArm Test) :=
  [⟨tscRw, .tsc, true⟩, ⟨setjmp, .setjmp, true⟩, ⟨msrRw, .msr, true⟩,
    ⟨kvmclockTest, .kvmClock, false⟩, ⟨ioapicTest, .ioapic, false⟩,
    ⟨tscAdjust, .tscAdjust, false⟩]

def pcmCdevIoctl (cmd : U32) (arg : U64) : IoctlProg Test ℤ :=
  cdevIoctl pcmTestIocMaxnr arms cmd arg

end PcmUnit

namespace FocusTest

/-- The test bodies of the focus_test driver. -/
inductive Test where
  | cpuid
  | rdpmc
  | rdrand
  | rdseed
  | invd
  | rdtsc
  | rdtscp
  | pio
  | mmio
  | icmp
  deriving DecidableEq, Repr

def cpuid : U32 := io pcmTestIocMagic 1
def invd : U32 := io pcmTestIocMagic 2
def rdseed : U32 := io pcmTestIocMagic 3
def rdrand : U32 := io pcmTestIocMagic 4
def rdpmc : U32 := io pcmTestIocMagic 5
def rdtsc : U32 := io pcmTestIocMagic 6
def rdtscp : U32 := io pcmTestIocMagic 7
def pio : U32 := io pcmTestIocMagic 8
def mmio : U32 := io pcmTestIocMagic 9
def icmp : U32 := io pcmTestIocMagic 10
def pcmTestIocMaxnr : U32 := 10

def arms : List (SwitchArm Test) :=
  [⟨cpuid, .cpuid, true⟩, ⟨rdpmc, .rdpmc, true⟩, ⟨rdrand, .rdrand, true⟩,
    ⟨rdseed, .rdseed, true⟩, ⟨invd, .invd, true⟩, ⟨rdtsc, .rdtsc, true⟩,
    ⟨rdtscp, .rdtscp, true⟩, ⟨pio, .pio, true⟩, ⟨mmio, .mmio, true⟩, ⟨icmp, .icmp, true⟩]

def pcmCdevIoctl (cmd : U32) (arg : U64) : IoctlProg Test ℤ :=
  cdevIoctl pcmTestIocMaxnr arms cmd arg

end FocusTest

end PcmTest.Driver
