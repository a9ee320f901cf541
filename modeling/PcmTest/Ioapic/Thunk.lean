import PcmTest.Theory.MachineCode
import PcmTest.Driver.Setjmp

/-!
# The gate and the thunk of a handler

`handle_irq_local` points a gate of the IDT at a thunk in fresh memory. The thunk
pushes the address of the C handler and jumps to the common entry point. It is
written byte by byte, and read back here by the decoder of the processor.
-/

namespace PcmTest.Ioapic

open Theory MachineCode Driver.X64

abbrev U64 := BitVec 64

/-- `idt_entry_t`; the padding of the bit fields has names. -/
structure IdtEntry where
  offset0 : BitVec 16
  selector : BitVec 16
  ist : BitVec 3
  pad₀ : BitVec 5
  type : BitVec 4
  pad₁ : BitVec 1
  dpl : BitVec 2
  p : BitVec 1
  offset1 : BitVec 16
  offset2 : BitVec 32
  reserved : BitVec 32
  deriving DecidableEq, Repr

/-- The 16 bytes of the structure, the first field lowest. -/
def IdtEntry.word (e : IdtEntry) : BitVec 128 :=
  e.reserved ++ e.offset2 ++ e.offset1 ++ e.p ++ e.dpl ++ e.pad₁ ++ e.type ++ e.pad₀ ++ e.ist ++
    e.selector ++ e.offset0

/-- What the processor takes from a gate of the IDT. -/
structure Gate where
  target : U64
  selector : BitVec 16
  ist : BitVec 3
  type : BitVec 4
  dpl : BitVec 2
  present : BitVec 1
  deriving DecidableEq, Repr

def decodeGate (w : BitVec 128) : Gate where
  target := w.extractLsb' 64 32 ++ w.extractLsb' 48 16 ++ w.extractLsb' 0 16
  selector := w.extractLsb' 16 16
  ist := w.extractLsb' 32 3
  type := w.extractLsb' 40 4
  dpl := w.extractLsb' 45 2
  present := w.extractLsb' 47 1

/-- The fields that the processor looks at are the ones that the structure names. -/
theorem decodeGate_word (e : IdtEntry) : decodeGate e.word =
    ⟨e.offset2 ++ e.offset1 ++ e.offset0, e.selector, e.ist, e.type, e.dpl, e.p⟩ := by
  have hfields : e.word.extractLsb' 0 16 = e.offset0 ∧ e.word.extractLsb' 16 16 = e.selector ∧
      e.word.extractLsb' 32 3 = e.ist ∧ e.word.extractLsb' 40 4 = e.type ∧
      e.word.extractLsb' 45 2 = e.dpl ∧ e.word.extractLsb' 47 1 = e.p ∧
      e.word.extractLsb' 48 16 = e.offset1 ∧ e.word.extractLsb' 64 32 = e.offset2 := by
    refine ⟨?_, ?_, ?_, ?_, ?_, ?_, ?_, ?_⟩
    all_goals
      unfold IdtEntry.word
      simp (disch := decide) only [BitVec.extractLsb'_append_eq_of_le,
        BitVec.extractLsb'_append_eq_of_add_le]
      exact BitVec.extractLsb'_eq_self
  obtain ⟨h₀, h₁, h₂, h₃, h₄, h₅, h₆, h₇⟩ := hfields
  rw [decodeGate, h₀, h₁, h₂, h₃, h₄, h₅, h₆, h₇]

/-- Neighbouring fields of a word are one field. -/
theorem join_fields {w : ℕ} (x : BitVec w) (i m n : ℕ) :
    ((x >>> (i + n)).setWidth m : BitVec m) ++ ((x >>> i).setWidth n : BitVec n) =
      (x >>> i).setWidth (m + n) := by
  apply BitVec.eq_of_getLsbD_eq
  intro j hj
  simp only [BitVec.getLsbD_append, BitVec.getLsbD_setWidth, BitVec.getLsbD_ushiftRight]
  by_cases hlow : j < n
  · simp [hlow, hj]
  · have hbit : i + n + (j - n) = i + j := by omega
    have hm : j - n < m := by omega
    simp [hlow, hj, hm, hbit]

theorem split_halves (x : U64) :
    ((x >>> 32).setWidth 32 : BitVec 32) ++ (x.setWidth 32 : BitVec 32) = x := by
  have hjoin := join_fields x 0 32 32
  rwa [Nat.zero_add, BitVec.ushiftRight_zero, BitVec.setWidth_eq] at hjoin

/-- An address is put together again from the three fields that it is split over. -/
theorem split_address (addr : U64) :
    ((addr >>> 32).setWidth 32 : BitVec 32) ++ ((addr >>> 16).setWidth 16 : BitVec 16) ++
      (addr.setWidth 16 : BitVec 16) = addr := by
  have hhigh := join_fields addr 16 32 16
  have hjoin := join_fields addr 0 48 16
  rw [Nat.zero_add, BitVec.ushiftRight_zero, BitVec.setWidth_eq] at hjoin
  rw [hhigh]
  exact hjoin

/-- The numbers of the registers in an encoding without extension. -/
def lowReg (n : BitVec 3) : Reg :=
  match n.toNat with
  | 0 => .rax
  | 1 => .rcx
  | 2 => .rdx
  | 3 => .rbx
  | 4 => .rsp
  | 5 => .rbp
  | 6 => .rsi
  | _ => .rdi

/-- The symbols that the code refers to, and the code segment it runs in. -/
structure Image where
  bootIdt : U64
  isrEntryPoint : U64
  cs : BitVec 16
  deriving DecidableEq, Repr

namespace Image

variable (image : Image)

/-- The address of `boot_idt[vec]`. -/
def gateAddr (vec : ℕ) : U64 := image.bootIdt + BitVec.ofNat 64 (16 * vec)

def idtEntry (addr : U64) (dpl : BitVec 2) : IdtEntry where
  offset0 := addr.setWidth 16
  selector := image.cs
  ist := 0
  pad₀ := 0
  type := 14
  pad₁ := 0
  dpl := dpl
  p := 1
  offset1 := (addr >>> 16).setWidth 16
  offset2 := (addr >>> 32).setWidth 32
  reserved := 0

def setIdtEntry (vec : ℕ) (addr : U64) (dpl : BitVec 2) (m : Memory 64) : Memory 64 :=
  m.store (image.gateAddr vec) (image.idtEntry addr dpl).word

/-- The thunk up to the displacement of its last instruction. -/
def thunkHead (func : U64) : List Item :=
  -- sub $8, %rsp
  [.byte 0x48, .byte 0x83, .byte 0xec, .byte 0x08,
  -- mov $func_low, (%rsp)
    .byte 0xc7, .byte 0x04, .byte 0x24, .word (func.setWidth 32),
  -- mov $func_high, 4(%rsp)
    .byte 0xc7, .byte 0x44, .byte 0x24, .byte 0x04, .word ((func >>> 32).setWidth 32),
  -- jmp isr_entry_point
    .byte 0xe9]

/-- The memory of `vmalloc`. -/
def thunkSize : ℕ := 50

/-- `thunk` is what `vmalloc` returned; the pointer moves with what is written. -/
def handleIrqLocal (vec : ℕ) (func thunk : U64) (m : Memory 64) : Memory 64 :=
  let m := image.setIdtEntry vec thunk 0 m
  let m := emit thunk (thunkHead func) m
  let thunk := thunk + BitVec.ofNat 64 (size (thunkHead func))
  m.store thunk ((image.isrEntryPoint - (thunk + 4)).setWidth 32)

/-- The whole thunk at its final place. -/
def thunkCode (func thunk : U64) : List Item :=
  thunkHead func ++ [.word ((image.isrEntryPoint - (thunk + 24)).setWidth 32)]

theorem size_thunkCode (func thunk : U64) : size (image.thunkCode func thunk) = 24 := by
  simp [thunkCode, thunkHead, Item.size]

theorem handleIrqLocal_eq (vec : ℕ) (func thunk : U64) (m : Memory 64) :
    image.handleIrqLocal vec func thunk m =
      emit thunk (image.thunkCode func thunk) (image.setIdtEntry vec thunk 0 m) := by
  have hnext : thunk + BitVec.ofNat 64 (size (thunkHead func)) + 4 = thunk + 24 := by
    rw [BitVec.add_assoc]
    rfl
  rw [thunkCode, emit_append, handleIrqLocal, ← hnext]
  rfl

theorem decodeGate_idtEntry (addr : U64) (dpl : BitVec 2) :
    decodeGate (image.idtEntry addr dpl).word = ⟨addr, image.cs, 0, 14, dpl, 1⟩ := by
  rw [decodeGate_word, idtEntry]
  dsimp only
  rw [split_address]

section Gates

variable {image} {thunk : U64} {vec : ℕ} (func : U64) (m : Memory 64)

/-- The code does not reach a gate, when its memory is apart from the table. -/
theorem load_gate_emit (hfresh : Apart thunk thunkSize image.bootIdt (16 * 256)) {v : ℕ}
    (hv : v < 256) (m : Memory 64) :
    (emit thunk (image.thunkCode func thunk) m).load 128 (image.gateAddr v) =
      m.load 128 (image.gateAddr v) := by
  apply Memory.load_congr
  intro q hq
  apply emit_outside
  intro hthunk
  rw [size_thunkCode] at hthunk
  have hin : Within thunk thunkSize q := within_first (n := 24) (k := 26) hthunk
  exact hfresh q hin (within_of_part (n := 16) (by omega) hq)

theorem load_gate_set (addr : U64) (dpl : BitVec 2) :
    (image.setIdtEntry vec addr dpl m).load 128 (image.gateAddr vec) =
      (image.idtEntry addr dpl).word :=
  Memory.load_store_same _ _ _ (by decide)

theorem load_gate_other (hvec : vec < 256) {v : ℕ} (hv : v < 256) (hne : v ≠ vec) (addr : U64)
    (dpl : BitVec 2) :
    (image.setIdtEntry vec addr dpl m).load 128 (image.gateAddr v) =
      m.load 128 (image.gateAddr v) := by
  apply Memory.load_store_apart
  have hbytes : wordBytes 128 = 16 := rfl
  rcases Nat.lt_or_gt_of_ne hne with hlt | hgt
  · exact apart_offsets (by omega) (by omega)
  · exact (apart_offsets (by omega) (by omega)).symm

end Gates

section Execution

variable {image} {func thunk : U64} {σ : Cpu Reg 64}

/-- The stack slot that the thunk fills. -/
def slot (σ : Cpu Reg 64) : U64 := σ.regs .rsp - 8

/-- The encodings of the four instructions. -/
def subCode : List Item := [.byte 0x48, .byte 0x83, .byte 0xec, .byte 0x08]

def lowCode (func : U64) : List Item :=
  [.byte 0xc7, .byte 0x04, .byte 0x24, .word (func.setWidth 32)]

def highCode (func : U64) : List Item :=
  [.byte 0xc7, .byte 0x44, .byte 0x24, .byte 0x04, .word ((func >>> 32).setWidth 32)]

def jumpCode (image : Image) (thunk : U64) : List Item :=
  [.byte 0xe9, .word ((image.isrEntryPoint - (thunk + 24)).setWidth 32)]

/-- The thunk, instruction by instruction. -/
theorem holds_instructions {m : Memory 64} (h : Holds m thunk (image.thunkCode func thunk)) :
    Holds m thunk subCode ∧ Holds m (thunk + 4#64) (lowCode func) ∧
      Holds m (thunk + 11#64) (highCode func) ∧ Holds m (thunk + 19#64) (jumpCode image thunk) := by
  have hsplit : image.thunkCode func thunk =
      subCode ++ (lowCode func ++ (highCode func ++ jumpCode image thunk)) := rfl
  rw [hsplit, holds_append, holds_append, holds_append, BitVec.add_assoc, BitVec.add_assoc] at h
  exact h

section Steps

variable {m : Memory 64} (h : Holds m thunk (image.thunkCode func thunk)) (regs : Reg → U64)
  (n : ℕ)

include h

theorem run_sub :
    MachineCode.run lowReg (n + 1) ⟨regs, thunk, m⟩ =
      MachineCode.run lowReg n
        ⟨Function.update regs .rsp (regs .rsp - 8), thunk + 4#64, m⟩ := by
  have hdecode := decode_subImm lowReg (by decide) (by decide) (holds_instructions h).1
  rw [run_succ hdecode]
  rfl

theorem run_low :
    MachineCode.run lowReg (n + 1) ⟨regs, thunk + 4#64, m⟩ =
      MachineCode.run lowReg n
        ⟨regs, thunk + 11#64, m.store (regs .rsp) (func.setWidth 32 : BitVec 32)⟩ := by
  have hdecode := decode_storeImm lowReg (by decide) (by decide) (by decide) (by decide)
    (by decide) (holds_instructions h).2.1
  have hnext : thunk + 4#64 + BitVec.ofNat 64 7 = thunk + 11#64 := BitVec.add_assoc _ _ _
  have haddr : regs (lowReg (rmField 0x24)) + (0 : BitVec 8).signExtend 64 = regs .rsp :=
    BitVec.add_zero _
  rw [run_succ hdecode, Op.exec, hnext, haddr]

theorem run_high :
    MachineCode.run lowReg (n + 1) ⟨regs, thunk + 11#64, m⟩ =
      MachineCode.run lowReg n
        ⟨regs, thunk + 19#64,
          m.store (regs .rsp + 4#64) ((func >>> 32).setWidth 32 : BitVec 32)⟩ := by
  have hdecode := decode_storeImm_disp lowReg (by decide) (by decide) (by decide) (by decide)
    (holds_instructions h).2.2.1
  have hnext : thunk + 11#64 + BitVec.ofNat 64 8 = thunk + 19#64 := BitVec.add_assoc _ _ _
  rw [run_succ hdecode, Op.exec, hnext]
  rfl

theorem run_jump :
    MachineCode.run lowReg (n + 1) ⟨regs, thunk + 19#64, m⟩ =
      MachineCode.run lowReg n
        ⟨regs, thunk + 24 +
          ((image.isrEntryPoint - (thunk + 24)).setWidth 32 : BitVec 32).signExtend 64, m⟩ := by
  have hdecode := decode_jump lowReg (holds_instructions h).2.2.2
  have hnext : thunk + 19#64 + BitVec.ofNat 64 5 = thunk + 24 := BitVec.add_assoc _ _ _
  rw [run_succ hdecode, Op.exec, hnext]

end Steps

/-- Stores to the slot leave the code alone. -/
theorem holds_outside_slot {m m' : Memory 64} {slot : U64}
    (h : Holds m thunk (image.thunkCode func thunk)) (hslot : Apart slot 8 thunk 24)
    (hm : ∀ q, ¬ Within slot 8 q → m' q = m q) : Holds m' thunk (image.thunkCode func thunk) := by
  apply h.congr
  intro q hq
  rw [size_thunkCode] at hq
  exact hm q fun hin => hslot q hin hq

/-- The thunk pushes the handler's address and jumps. -/
theorem run_thunk (h : Holds σ.mem thunk (image.thunkCode func thunk)) (hip : σ.ip = thunk)
    (hslot : Apart (slot σ) 8 thunk 24) :
    MachineCode.run lowReg 4 σ = some
      { regs := Function.update σ.regs .rsp (slot σ)
        ip := thunk + 24 + ((image.isrEntryPoint - (thunk + 24)).setWidth 32).signExtend 64
        mem := σ.mem.store (slot σ) func } := by
  obtain ⟨regs, ip, m⟩ := σ
  obtain rfl : ip = thunk := hip
  let lo : BitVec 32 := func.setWidth 32
  let m₁ := m.store (regs .rsp - 8) lo
  have hstore : m₁.store (regs .rsp - 8 + 4#64) ((func >>> 32).setWidth 32 : BitVec 32) =
      m.store (regs .rsp - 8) func := by
    have hhalves := Memory.store_halves m (regs .rsp - 8) lo ((func >>> 32).setWidth 32)
    rwa [split_halves] at hhalves
  have h₁ : Holds m₁ ip (image.thunkCode func ip) := by
    apply holds_outside_slot h hslot
    intro q hq
    exact Memory.store_outside lo fun hin => hq (within_first (n := 4) (k := 4) hin)
  have h₂ : Holds (m.store (regs .rsp - 8) func) ip (image.thunkCode func ip) := by
    apply holds_outside_slot h hslot
    intro q hq
    exact Memory.store_outside func hq
  rw [run_sub h, run_low h, Function.update_self, run_high h₁, Function.update_self, hstore,
    run_jump h₂]
  rfl

end Execution

/-- What the thunk does from `σ`, entered by the gate, to the state `s` behind its jump. -/
structure ThunkPushes (func thunk : U64) (σ s : Cpu Reg 64) : Prop where
  regs : s.regs = Function.update σ.regs .rsp (slot σ)
  pushed : s.mem.load 64 (slot σ) = func
  mem : ∀ q, ¬ Within (slot σ) 8 q → s.mem q = σ.mem q
  /-- The displacement is cut to 32 bits without a word. -/
  ip : s.ip = image.isrEntryPoint ↔
    -2 ^ 31 ≤ (image.isrEntryPoint - (thunk + 24)).toInt ∧
      (image.isrEntryPoint - (thunk + 24)).toInt < 2 ^ 31

theorem thunkPushes {func thunk : U64} {σ : Cpu Reg 64}
    (h : Holds σ.mem thunk (image.thunkCode func thunk)) (hip : σ.ip = thunk)
    (hslot : Apart (slot σ) 8 thunk 24) :
    ∃ s, MachineCode.run lowReg 4 σ = some s ∧ image.ThunkPushes func thunk σ s := by
  refine ⟨_, run_thunk h hip hslot, ?_⟩
  constructor
  · rfl
  · exact Memory.load_store_same _ _ _ (by decide)
  · intro q hq
    exact Memory.store_outside func hq
  · exact jump_arrives_iff _ _

/-- What `handle_irq_local` leaves when `vmalloc` returned memory of its own: a gate for the
thunk, the other gates, and a thunk that pushes the handler and jumps. -/
theorem handleIrqLocal_contract {vec : ℕ} (hvec : vec < 256) (func : U64) {thunk : U64}
    (hfresh : Apart thunk thunkSize image.bootIdt (16 * 256)) (m : Memory 64) :
    let m' := image.handleIrqLocal vec func thunk m
    decodeGate (m'.load 128 (image.gateAddr vec)) = ⟨thunk, image.cs, 0, 14, 0, 1⟩ ∧
      (∀ v < 256, v ≠ vec →
        m'.load 128 (image.gateAddr v) = m.load 128 (image.gateAddr v)) ∧
      ∀ σ : Cpu Reg 64, σ.ip = thunk → (∀ q, Within thunk 24 q → σ.mem q = m' q) →
        Apart (slot σ) 8 thunk 24 →
          ∃ s, MachineCode.run lowReg 4 σ = some s ∧ image.ThunkPushes func thunk σ s := by
  intro m'
  have hm' : m' = emit thunk (image.thunkCode func thunk) (image.setIdtEntry vec thunk 0 m) :=
    image.handleIrqLocal_eq vec func thunk m
  refine ⟨?_, ?_, ?_⟩
  · rw [hm', load_gate_emit func hfresh hvec, load_gate_set, decodeGate_idtEntry]
  · intro v hv hne
    rw [hm', load_gate_emit func hfresh hv, load_gate_other m hvec hv hne]
  · intro σ hip hcode hslot
    have hm : Holds m' thunk (image.thunkCode func thunk) := by
      rw [hm']
      apply holds_emit
      rw [size_thunkCode]
      decide
    have hσ : Holds σ.mem thunk (image.thunkCode func thunk) := by
      apply hm.congr
      intro q hq
      rw [size_thunkCode] at hq
      exact hcode q hq
    exact image.thunkPushes hσ hip hslot

end Image

/-- A kernel whose entry point is near the memory of `vmalloc`. -/
def nearImage : Image := ⟨0x1000, 0x4000, 0x10⟩

/-- The processor behind the gate of vector 0x76. -/
def enterThunk (m : Memory 64) : Cpu Reg 64 := ⟨fun _ => 0x20000, 0x8000, m⟩

theorem handleIrqLocal_contract_near :
    let m := nearImage.handleIrqLocal 0x76 0xffffffffa0001000 0x8000 fun _ => 0
    (decodeGate (m.load 128 (nearImage.gateAddr 0x76))).target = 0x8000 ∧
      ∃ s, MachineCode.run lowReg 4 (enterThunk m) = some s ∧
        s.mem.load 64 0x1fff8 = 0xffffffffa0001000 ∧ s.ip = 0x4000 := by
  intro m
  have hfresh : Apart 0x8000 Image.thunkSize nearImage.bootIdt (16 * 256) := by
    intro q hq hq'
    unfold Within Image.thunkSize at hq
    unfold Within nearImage at hq'
    bv_omega
  have hslot : Apart (Image.slot (enterThunk m)) 8 0x8000 24 := by
    intro q hq hq'
    unfold Within Image.slot enterThunk at hq
    unfold Within at hq'
    bv_omega
  obtain ⟨hgate, -, hrun⟩ := nearImage.handleIrqLocal_contract (show 0x76 < 256 by decide)
    0xffffffffa0001000 hfresh fun _ => 0
  obtain ⟨s, hs, hpushes⟩ := hrun (enterThunk m) rfl (fun _ _ => rfl) hslot
  have hslotAddr : Image.slot (enterThunk m) = 0x1fff8 := by
    unfold Image.slot enterThunk
    dsimp only
    bv_omega
  have hpushed := hpushes.pushed
  rw [hslotAddr] at hpushed
  exact ⟨congrArg Gate.target hgate, s, hs, hpushed, hpushes.ip.mpr (by decide)⟩

end PcmTest.Ioapic
