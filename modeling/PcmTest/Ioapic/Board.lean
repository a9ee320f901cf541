import PcmTest.Ioapic.Tests
import Mathlib.Logic.Function.Basic

/-!
# The board under the I/O APIC tests

The I/O APIC is an index register and a file of data registers; an access at
the data offset goes to the register that the index selects. The ports, the statics
and the interrupt flag complete what the code can change.
-/

namespace PcmTest.Ioapic

open Theory

structure Board where
  index : U32
  regs : U32 → U32
  ports : U16 → U8
  vars : Var → U32
  irqFlag : Bool

namespace Board

def mmioWrite (offset value : U32) (b : Board) : Board :=
  if offset = indexOffset then { b with index := value }
  else if offset = dataOffset then { b with regs := Function.update b.regs b.index value }
  else b

@[simp] theorem mmioWrite_ports (offset value : U32) (b : Board) :
    (b.mmioWrite offset value).ports = b.ports := by
  unfold mmioWrite
  split_ifs <;> rfl

@[simp] theorem mmioWrite_vars (offset value : U32) (b : Board) :
    (b.mmioWrite offset value).vars = b.vars := by
  unfold mmioWrite
  split_ifs <;> rfl

end Board

/-- The answers of what the board leaves open: the local APIC, the processor's identification
and the kernel. -/
abbrev Outside := (c : Cmd) → c.Answer

/-- One access. Waiting and calls to the second CPU do not change the board themselves. -/
def Board.access (out : Outside) : (c : Cmd) → Board → c.Answer × Board
  | .mmioWrite offset value, b => ((), b.mmioWrite offset value)
  | .mmioRead offset, b => (if offset = dataOffset then b.regs b.index else b.index, b)
  | .out value port, b => ((), { b with ports := Function.update b.ports port value })
  | .cli, b => ((), { b with irqFlag := false })
  | .sti, b => ((), { b with irqFlag := true })
  | .load v, b => (b.vars v, b)
  | .store v x, b => ((), { b with vars := Function.update b.vars v x })
  | c, b => (out c, b)

section Registers

def loReg (line : U32) : U32 := 0x10 + line * 2 + 0

def hiReg (line : U32) : U32 := 0x10 + line * 2 + 1

theorem loReg_ne_hiReg (line line' : U32) : loReg line ≠ hiReg line' := by
  unfold loReg hiReg
  bv_omega

theorem hiReg_ne_loReg (line line' : U32) : hiReg line ≠ loReg line' :=
  (loReg_ne_hiReg line' line).symm

theorem hiReg_eq (line : U32) : hiReg line = loReg line + 1 := by
  unfold loReg hiReg
  bv_omega

theorem hiReg_inj {line line' : U32} : hiReg line = hiReg line' ↔ loReg line = loReg line' := by
  rw [hiReg_eq, hiReg_eq]
  exact BitVec.add_left_inj 1

/-- What `set_mask` is for: replace the mask bit of one entry. -/
def maskEntry (line mask : U32) (regs : U32 → U32) : U32 → U32 :=
  Function.update regs (loReg line) (RedirEntry.maskWord (regs (loReg line)) mask)

theorem maskEntry_of_ne {line line' : U32} (h : loReg line' ≠ loReg line) (mask : U32)
    (regs : U32 → U32) : maskEntry line mask regs (loReg line') = regs (loReg line') :=
  Function.update_of_ne h _ _

theorem maskEntry_same {line line' : U32} (h : loReg line = loReg line') (mask mask' : U32)
    (regs : U32 → U32) :
    maskEntry line mask (maskEntry line' mask' regs) = maskEntry line mask regs := by
  simp [maskEntry, h]

theorem maskEntry_comm {line line' : U32} (h : loReg line ≠ loReg line') (mask mask' : U32)
    (regs : U32 → U32) :
    maskEntry line mask (maskEntry line' mask' regs) =
      maskEntry line' mask' (maskEntry line mask regs) := by
  simp only [maskEntry, Function.update_of_ne h, Function.update_of_ne h.symm]
  exact Function.update_comm h.symm _ _ _

/-- The eight accesses of `set_mask`. -/
theorem setMask_eq (line mask : U32) :
    setMask line mask = (do
      mmioWrite indexOffset (loReg line)
      let lo ← mmioRead dataOffset
      mmioWrite indexOffset (hiReg line)
      let hi ← mmioRead dataOffset
      mmioWrite indexOffset (loReg line)
      mmioWrite dataOffset (RedirEntry.maskWord lo mask)
      mmioWrite indexOffset (hiReg line)
      mmioWrite dataOffset hi) := by
  simp only [setMask, ioapicReadRedir, ioapicWriteRedir, ioapicReadReg, ioapicWriteReg,
    Prog.bind_eq, Prog.bind_assoc, Prog.pure_eq, Prog.pure_bind, RedirEntry.lo_setMask,
    RedirEntry.hi_setMask]
  rfl

variable {α : Type} (out : Outside) (b : Board)

@[simp] theorem exec_selectReg (reg : U32) (next : Unit → IoapicProg α) :
    ((mmioWrite indexOffset reg).bind next).exec (Board.access out) b =
      (next ()).exec (Board.access out) { b with index := reg } := rfl

@[simp] theorem exec_writeData (value : U32) (next : Unit → IoapicProg α) :
    ((mmioWrite dataOffset value).bind next).exec (Board.access out) b =
      (next ()).exec (Board.access out)
        { b with regs := Function.update b.regs b.index value } := rfl

@[simp] theorem exec_readData (next : U32 → IoapicProg α) :
    ((mmioRead dataOffset).bind next).exec (Board.access out) b =
      (next (b.regs b.index)).exec (Board.access out) b := rfl

@[simp] theorem exec_mmioWrite (value : U32) :
    (mmioWrite dataOffset value).exec (Board.access out) b =
      ((), { b with regs := Function.update b.regs b.index value }) := rfl

@[simp] theorem maskEntry_fold (line mask : U32) (regs : U32 → U32) :
    Function.update regs (loReg line) (RedirEntry.maskWord (regs (loReg line)) mask) =
      maskEntry line mask regs := rfl

@[simp] theorem update_loReg_hiReg (line line' x : U32) (regs : U32 → U32) :
    Function.update regs (loReg line) x (hiReg line') = regs (hiReg line') :=
  Function.update_of_ne (hiReg_ne_loReg line' line) _ _

@[simp] theorem maskEntry_hiReg (line line' mask : U32) (regs : U32 → U32) :
    maskEntry line mask regs (hiReg line') = regs (hiReg line') :=
  update_loReg_hiReg line line' _ regs

/-- Writing back the high word that was read changes nothing. -/
@[simp] theorem maskEntry_writeBack (line line' mask : U32) (regs : U32 → U32) :
    Function.update (maskEntry line mask regs) (hiReg line') (regs (hiReg line')) =
      maskEntry line mask regs := by
  rw [← maskEntry_hiReg line line' mask regs]
  exact Function.update_eq_self _ _

/-- Undisturbed, the call changes its entry alone. -/
theorem exec_setMask (line mask : U32) :
    (setMask line mask).exec (Board.access out) b =
      ((), { b with index := hiReg line, regs := maskEntry line mask b.regs }) := by
  rw [setMask_eq]
  simp

end Registers

end PcmTest.Ioapic
