import PcmTest.Theory.MoveCode

/-!
# setjmp and longjmp

The routines of setjmp64.S and setjmp32.S save the return address, the stack
pointer and the callee-saved registers in `env`, and restore them from there.
They differ in where the arguments are, in the scratch registers and in the
order, and agree in shape; the contract is proved once for the shape.
-/

namespace PcmTest.Driver

open Theory

structure JumpAbi (R : Type) (w : ℕ) where
  sp : R
  ax : R
  calleeSaved : List R
  envSize : ℕ
  stored : ℕ
  env : Cpu R w → BitVec w
  val : Cpu R w → BitVec 32

section Contract

variable {R : Type} [DecidableEq R] {w : ℕ}

/-- What a call of `setjmp` from `s` that ends in `s₁` owes its caller. -/
structure SetjmpReturns (abi : JumpAbi R w) (s s₁ : Cpu R w) : Prop where
  ip : s₁.ip = s.mem.load w (s.regs abi.sp)
  result : (s₁.regs abi.ax).setWidth 32 = 0
  saved : ∀ r ∈ abi.calleeSaved, s₁.regs r = s.regs r
  sp : s₁.regs abi.sp = s.regs abi.sp + BitVec.ofNat w (wordBytes w)
  mem : ∀ q, ¬ Within (abi.env s) abi.envSize q → s₁.mem q = s.mem q

/-- What a call of `longjmp` from `σ` that ends in `s₂` owes, when `setjmp` had ended in `s₁`. -/
structure LongjmpReturns (abi : JumpAbi R w) (s₁ σ s₂ : Cpu R w) : Prop where
  ip : s₂.ip = s₁.ip
  result : (s₂.regs abi.ax).setWidth 32 = abi.val σ
  saved : ∀ r ∈ abi.calleeSaved, s₂.regs r = s₁.regs r
  sp : s₂.regs abi.sp = s₁.regs abi.sp
  mem : ∀ q, ¬ Within (s₁.regs abi.sp - BitVec.ofNat w (wordBytes w)) (wordBytes w) q →
    s₂.mem q = σ.mem q

/-- From any state whose `env` is apart from the return address, `setjmp` returns; and from any
later state that has kept the bytes `setjmp` stored, `longjmp` on the same `env` returns there. -/
def JumpContract (abi : JumpAbi R w) (setjmp longjmp : List (Instr R)) : Prop :=
  ∀ s : Cpu R w, Apart (abi.env s) abi.envSize (s.regs abi.sp) (wordBytes w) →
    SetjmpReturns abi s (s.exec abi.sp setjmp) ∧
    ∀ σ : Cpu R w, abi.env σ = abi.env s →
      (∀ q, Within (abi.env s) abi.stored q → σ.mem q = (s.exec abi.sp setjmp).mem q) →
        LongjmpReturns abi (s.exec abi.sp setjmp) σ (σ.exec abi.sp longjmp)

/-- The common shape: a prologue that finds the arguments, a block of saves, and an epilogue. -/
structure JumpShape (abi : JumpAbi R w) where
  setjmpPrologue : List (Instr R)
  saveBase : R
  retAddr : R
  saved : Slots R
  longjmpPrologue : List (Instr R)
  restoreBase : R
  restored : Slots R
  carrier : R
  layout : Layout w saved abi.stored
  stored_le : abi.stored ≤ abi.envSize
  setjmp_mem : ∀ s : Cpu R w, (s.exec abi.sp setjmpPrologue).mem = s.mem
  setjmp_base : ∀ s : Cpu R w, (s.exec abi.sp setjmpPrologue).regs saveBase = abi.env s
  setjmp_retAddr : ∀ s : Cpu R w,
    (s.exec abi.sp setjmpPrologue).regs retAddr = s.mem.load w (s.regs abi.sp)
  setjmp_regs : ∀ (s : Cpu R w), ∀ r ∈ abi.sp :: abi.calleeSaved,
    (s.exec abi.sp setjmpPrologue).regs r = s.regs r
  longjmp_mem : ∀ s : Cpu R w, (s.exec abi.sp longjmpPrologue).mem = s.mem
  longjmp_base : ∀ s : Cpu R w, (s.exec abi.sp longjmpPrologue).regs restoreBase = abi.env s
  longjmp_val : ∀ s : Cpu R w,
    ((s.exec abi.sp longjmpPrologue).regs abi.ax).setWidth 32 = abi.val s
  saved_retAddr : (retAddr, 0) ∈ saved
  restored_nodup : (restored.map Prod.fst).Nodup
  restored_base : ∀ x ∈ restored, x.1 ≠ restoreBase
  restored_ax : ∀ x ∈ restored, x.1 ≠ abi.ax
  /-- Every register of the contract is restored from the slot it was saved to. -/
  slot : ∀ r ∈ abi.sp :: abi.calleeSaved, ∃ x ∈ saved, x.1 = r ∧ x ∈ restored
  ax_ne_sp : abi.ax ≠ abi.sp
  carrier_ne : ∀ r ∈ abi.ax :: abi.sp :: abi.calleeSaved, carrier ≠ r
  calleeSaved_ne : ∀ r ∈ abi.calleeSaved, r ≠ abi.ax ∧ r ≠ abi.sp

namespace JumpShape

variable {abi : JumpAbi R w} (shape : JumpShape abi)

def setjmp : List (Instr R) :=
  shape.setjmpPrologue ++ (saves shape.saveBase shape.saved ++ [.xor32 abi.ax abi.ax, .ret])

def longjmp : List (Instr R) :=
  shape.longjmpPrologue ++ (restores shape.restoreBase shape.restored ++
    [.load 0 shape.restoreBase shape.carrier, .store shape.carrier 0 abi.sp, .ret])

def frame (s : Cpu R w) : Memory w :=
  saveAll (s.exec abi.sp shape.setjmpPrologue).regs (abi.env s) shape.saved s.mem

theorem exec_setjmp (s : Cpu R w) :
    let s' := s.exec abi.sp shape.setjmpPrologue
    s.exec abi.sp shape.setjmp =
      { regs := Function.update (Function.update s'.regs abi.ax 0) abi.sp
          (s.regs abi.sp + BitVec.ofNat w (wordBytes w))
        ip := (shape.frame s).load w (s.regs abi.sp)
        mem := shape.frame s } := by
  intro s'
  have hsp : s'.regs abi.sp = s.regs abi.sp := shape.setjmp_regs s abi.sp (by simp)
  rw [setjmp, Cpu.exec_append, Cpu.exec_append, exec_saves, shape.setjmp_base, shape.setjmp_mem,
    exec_clear_ret shape.ax_ne_sp, hsp]
  rfl

theorem frame_retAddr {s : Cpu R w}
    (h : Apart (abi.env s) abi.envSize (s.regs abi.sp) (wordBytes w)) :
    (shape.frame s).load w (s.regs abi.sp) = s.mem.load w (s.regs abi.sp) := by
  apply Memory.load_congr
  intro q hq
  apply saveAll_outside fun x hx => Nat.le_trans (shape.layout.inside x hx) shape.stored_le
  exact fun henv => h q henv hq

theorem setjmpReturns {s : Cpu R w}
    (h : Apart (abi.env s) abi.envSize (s.regs abi.sp) (wordBytes w)) :
    SetjmpReturns abi s (s.exec abi.sp shape.setjmp) := by
  rw [exec_setjmp]
  constructor
  · exact shape.frame_retAddr h
  · dsimp only
    rw [Function.update_of_ne shape.ax_ne_sp, Function.update_self]
    simp
  · intro r hr
    obtain ⟨hax, hsp⟩ := shape.calleeSaved_ne r hr
    dsimp only
    rw [Function.update_of_ne hsp, Function.update_of_ne hax]
    exact shape.setjmp_regs s r (by simp [hr])
  · exact Function.update_self _ _ _
  · intro q hq
    exact saveAll_outside
      (fun x hx => Nat.le_trans (shape.layout.inside x hx) shape.stored_le) _ hq

/-- The slots of a state that has kept the stored bytes still hold what `setjmp` saved. -/
theorem load_slot {s σ : Cpu R w}
    (hkept : ∀ q, Within (abi.env s) abi.stored q → σ.mem q = shape.frame s q) {r : R} {d : ℕ}
    (hr : (r, d) ∈ shape.saved) :
    σ.mem.load w (abi.env s + BitVec.ofNat w d) =
      (s.exec abi.sp shape.setjmpPrologue).regs r := by
  have hsame : σ.mem.load w (abi.env s + BitVec.ofNat w d) =
      (shape.frame s).load w (abi.env s + BitVec.ofNat w d) := by
    apply Memory.load_congr
    intro q hq
    exact hkept q (within_of_part (shape.layout.inside _ hr) hq)
  rw [hsame]
  exact load_saveAll shape.layout hr s.mem

theorem exec_longjmp (hw : wordBytes w ≤ 2 ^ w) (σ : Cpu R w) :
    let b := abi.env σ
    let regs := restoreAll σ.mem b shape.restored (σ.exec abi.sp shape.longjmpPrologue).regs
    σ.exec abi.sp shape.longjmp =
      { regs := Function.update (Function.update regs shape.carrier (σ.mem.load w b)) abi.sp
          (regs abi.sp + BitVec.ofNat w (wordBytes w))
        ip := σ.mem.load w b
        mem := σ.mem.store (regs abi.sp) (σ.mem.load w b) } := by
  intro b regs
  have hbase : regs shape.restoreBase = b :=
    (restoreAll_of_notMem shape.restored_base _).trans (shape.longjmp_base σ)
  rw [longjmp, Cpu.exec_append, Cpu.exec_append, exec_restores _ shape.restored_base,
    shape.longjmp_base, shape.longjmp_mem, exec_jump (shape.carrier_ne _ (by simp)) hw]
  dsimp only
  rw [show restoreAll σ.mem (abi.env σ) shape.restored
    (σ.exec abi.sp shape.longjmpPrologue).regs = regs from rfl, hbase]

theorem restored_eq {s σ : Cpu R w} (henv : abi.env σ = abi.env s)
    (hkept : ∀ q, Within (abi.env s) abi.stored q → σ.mem q = shape.frame s q) {r : R}
    (hr : r ∈ abi.sp :: abi.calleeSaved) :
    restoreAll σ.mem (abi.env σ) shape.restored (σ.exec abi.sp shape.longjmpPrologue).regs r =
      s.regs r := by
  obtain ⟨⟨r', d⟩, hsaved, he, hrestored⟩ := shape.slot r hr
  obtain rfl : r' = r := he
  have hload := restoreAll_of_mem (m := σ.mem) (b := abi.env σ) shape.restored_nodup hrestored
    (σ.exec abi.sp shape.longjmpPrologue).regs
  rw [hload, henv, shape.load_slot hkept hsaved, shape.setjmp_regs s r' hr]

theorem longjmpReturns (hw : wordBytes w ≤ 2 ^ w) {s σ : Cpu R w}
    (h : Apart (abi.env s) abi.envSize (s.regs abi.sp) (wordBytes w))
    (henv : abi.env σ = abi.env s)
    (hkept : ∀ q, Within (abi.env s) abi.stored q →
      σ.mem q = (s.exec abi.sp shape.setjmp).mem q) :
    LongjmpReturns abi (s.exec abi.sp shape.setjmp) σ (σ.exec abi.sp shape.longjmp) := by
  have hmem : (s.exec abi.sp shape.setjmp).mem = shape.frame s :=
    congrArg Cpu.mem (shape.exec_setjmp s)
  rw [hmem] at hkept
  obtain ⟨hip, -, hsaved, hsp, -⟩ := shape.setjmpReturns h
  have hrestored : ∀ r ∈ abi.sp :: abi.calleeSaved, restoreAll σ.mem (abi.env σ) shape.restored
      (σ.exec abi.sp shape.longjmpPrologue).regs r = s.regs r :=
    fun r hr => shape.restored_eq henv hkept hr
  have hretAddr : σ.mem.load w (abi.env σ) = s.mem.load w (s.regs abi.sp) := by
    have hslot := shape.load_slot hkept shape.saved_retAddr
    rw [shape.setjmp_retAddr, BitVec.add_zero, ← henv] at hslot
    exact hslot
  rw [shape.exec_longjmp hw σ]
  constructor
  · exact hretAddr.trans hip.symm
  · dsimp only
    rw [Function.update_of_ne shape.ax_ne_sp,
      Function.update_of_ne (shape.carrier_ne _ (by simp)).symm,
      restoreAll_of_notMem shape.restored_ax]
    exact shape.longjmp_val σ
  · intro r hr
    obtain ⟨-, hne⟩ := shape.calleeSaved_ne r hr
    dsimp only
    rw [Function.update_of_ne hne, Function.update_of_ne (shape.carrier_ne _ (by simp [hr])).symm,
      hrestored r (by simp [hr]), hsaved r hr]
  · dsimp only
    rw [Function.update_self, hrestored _ (by simp), hsp]
  · intro q hq
    rw [hsp, add_sub_cancel_right] at hq
    dsimp only
    rw [hrestored _ (by simp)]
    exact Memory.store_outside _ hq

theorem jumpContract (hw : wordBytes w ≤ 2 ^ w) : JumpContract abi shape.setjmp shape.longjmp :=
  fun _ h => ⟨shape.setjmpReturns h, fun _ henv hkept => shape.longjmpReturns hw h henv hkept⟩

end JumpShape

end Contract

namespace X64

inductive Reg where
  | rax | rbx | rcx | rdx | rsi | rdi | rbp | rsp
  | r8 | r9 | r10 | r11 | r12 | r13 | r14 | r15
  deriving DecidableEq, Repr

/-- setjmp64.S. -/
def setjmp : List (Instr Reg) :=
  [.load 0 .rsp .rsi, .store .rsi 0 .rdi, .store .rsp 0x8 .rdi, .store .rbp 0x10 .rdi,
    .store .rbx 0x18 .rdi, .store .r12 0x20 .rdi, .store .r13 0x28 .rdi, .store .r14 0x30 .rdi,
    .store .r15 0x38 .rdi, .xor32 .rax .rax, .ret]

def longjmp : List (Instr Reg) :=
  [.mov32 .rsi .rax, .load 0x38 .rdi .r15, .load 0x30 .rdi .r14, .load 0x28 .rdi .r13,
    .load 0x20 .rdi .r12, .load 0x18 .rdi .rbx, .load 0x10 .rdi .rbp, .load 0x8 .rdi .rsp,
    .load 0 .rdi .rsi, .store .rsi 0 .rsp, .ret]

/-- The arguments are in `rdi` and `esi`. -/
def abi : JumpAbi Reg 64 where
  sp := .rsp
  ax := .rax
  calleeSaved := [.rbp, .rbx, .r12, .r13, .r14, .r15]
  envSize := 64
  stored := 64
  env s := s.regs .rdi
  val s := (s.regs .rsi).setWidth 32

def shape : JumpShape abi where
  setjmpPrologue := [.load 0 .rsp .rsi]
  saveBase := .rdi
  retAddr := .rsi
  saved := [(.rsi, 0), (.rsp, 0x8), (.rbp, 0x10), (.rbx, 0x18), (.r12, 0x20), (.r13, 0x28),
    (.r14, 0x30), (.r15, 0x38)]
  longjmpPrologue := [.mov32 .rsi .rax]
  restoreBase := .rdi
  restored := [(.r15, 0x38), (.r14, 0x30), (.r13, 0x28), (.r12, 0x20), (.rbx, 0x18), (.rbp, 0x10),
    (.rsp, 0x8)]
  carrier := .rsi
  layout := ⟨by decide, by decide, by decide⟩
  stored_le := by decide
  setjmp_mem _ := rfl
  setjmp_base _ := rfl
  setjmp_retAddr s := congrArg (s.mem.load 64) (s.addr_zero .rsp)
  setjmp_regs s r hr := by
    simp only [abi, List.mem_cons, List.not_mem_nil, or_false] at hr
    rcases hr with rfl | rfl | rfl | rfl | rfl | rfl | rfl <;> rfl
  longjmp_mem _ := rfl
  longjmp_base _ := rfl
  longjmp_val s := BitVec.setWidth_setWidth_of_le ((s.regs .rsi).setWidth 32) (by decide)
  saved_retAddr := by decide
  restored_nodup := by decide
  restored_base := by decide
  restored_ax := by decide
  slot := by decide
  ax_ne_sp := by decide
  carrier_ne := by decide
  calleeSaved_ne := by decide

end X64

namespace I386

inductive Reg where
  | eax | ebx | ecx | edx | esi | edi | ebp | esp
  deriving DecidableEq, Repr

/-- setjmp32.S. -/
def setjmp : List (Instr Reg) :=
  [.load 0 .esp .ecx, .load 4 .esp .eax, .store .ecx 0 .eax, .store .esp 4 .eax,
    .store .ebp 8 .eax, .store .ebx 12 .eax, .store .esi 16 .eax, .store .edi 20 .eax,
    .xor32 .eax .eax, .ret]

def longjmp : List (Instr Reg) :=
  [.load 8 .esp .eax, .load 4 .esp .ecx, .load 20 .ecx .edi, .load 16 .ecx .esi,
    .load 12 .ecx .ebx, .load 8 .ecx .ebp, .load 4 .ecx .esp, .load 0 .ecx .ecx,
    .store .ecx 0 .esp, .ret]

/-- The arguments are on the stack above the return address. -/
def abi : JumpAbi Reg 32 where
  sp := .esp
  ax := .eax
  calleeSaved := [.ebp, .ebx, .esi, .edi]
  envSize := 32
  stored := 24
  env s := s.mem.load 32 (s.addr 4 .esp)
  val s := s.mem.load 32 (s.addr 8 .esp)

def shape : JumpShape abi where
  setjmpPrologue := [.load 0 .esp .ecx, .load 4 .esp .eax]
  saveBase := .eax
  retAddr := .ecx
  saved := [(.ecx, 0), (.esp, 4), (.ebp, 8), (.ebx, 12), (.esi, 16), (.edi, 20)]
  longjmpPrologue := [.load 8 .esp .eax, .load 4 .esp .ecx]
  restoreBase := .ecx
  restored := [(.edi, 20), (.esi, 16), (.ebx, 12), (.ebp, 8), (.esp, 4)]
  carrier := .ecx
  layout := ⟨by decide, by decide, by decide⟩
  stored_le := by decide
  setjmp_mem _ := rfl
  setjmp_base _ := rfl
  setjmp_retAddr s := congrArg (s.mem.load 32) (s.addr_zero .esp)
  setjmp_regs s r hr := by
    simp only [abi, List.mem_cons, List.not_mem_nil, or_false] at hr
    rcases hr with rfl | rfl | rfl | rfl | rfl <;> rfl
  longjmp_mem _ := rfl
  longjmp_base _ := rfl
  longjmp_val _ := rfl
  saved_retAddr := by decide
  restored_nodup := by decide
  restored_base := by decide
  restored_ax := by decide
  slot := by decide
  ax_ne_sp := by decide
  carrier_ne := by decide
  calleeSaved_ne := by decide

end I386

/-- Both implementations keep the contract of `setjmp` and `longjmp`. -/
theorem setjmp_longjmp_contract :
    JumpContract X64.abi X64.setjmp X64.longjmp ∧
      JumpContract I386.abi I386.setjmp I386.longjmp :=
  ⟨X64.shape.jumpContract (by decide), I386.shape.jumpContract (by decide)⟩

/-- A caller with `env` at 0x6000 and its return address at 0x8000. -/
def X64.caller : Cpu X64.Reg 64 where
  regs r := if r = .rdi then 0x6000 else if r = .rsp then 0x8000 else 0
  ip := 0
  mem _ := 0

/-- Code that the caller has called since, with a stack and an `rbx` of its own, and with 5 for
`longjmp`. -/
def X64.callee : Cpu X64.Reg 64 :=
  let s := X64.caller.exec .rsp X64.setjmp
  { s with
    regs := Function.update (Function.update (Function.update s.regs .rsp 0x7000) .rbx 9) .rsi 5 }

theorem setjmp_longjmp_contract_five :
    (SetjmpReturns X64.abi X64.caller (X64.caller.exec .rsp X64.setjmp) ∧
      LongjmpReturns X64.abi (X64.caller.exec .rsp X64.setjmp) X64.callee
        (X64.callee.exec .rsp X64.longjmp)) ∧
    X64.abi.val X64.callee = 5 := by
  have hapart : Apart (X64.abi.env X64.caller) X64.abi.envSize
      (X64.caller.regs X64.abi.sp) (wordBytes 64) := by
    intro q hq hq'
    change Within 0x6000 64 q at hq
    change Within 0x8000 8 q at hq'
    unfold Within at hq hq'
    bv_omega
  obtain ⟨hset, hjump⟩ := setjmp_longjmp_contract.1 X64.caller hapart
  exact ⟨⟨hset, hjump X64.callee rfl fun _ _ => rfl⟩, rfl⟩

end PcmTest.Driver
