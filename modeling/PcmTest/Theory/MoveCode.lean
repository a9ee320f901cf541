import PcmTest.Theory.ByteMemory
import Mathlib.Logic.Function.Basic
import Mathlib.Data.List.Nodup

/-!
# Straight code of moves between registers and memory

Enough of a processor to run routines that save and restore registers: loads,
stores, two 32-bit register instructions, and the return. Registers are words of
`w` bits and addresses have the same width. A block of saves writes registers to
slots of one frame; a block of restores reads slots back.
-/

namespace PcmTest.Theory

variable {R : Type} {w : ℕ}

/-- AT&T order: the source comes before the destination. -/
inductive Instr (R : Type) where
  | load (disp : ℕ) (base dst : R)
  | store (src : R) (disp : ℕ) (base : R)
  | mov32 (src dst : R)
  | xor32 (src dst : R)
  | ret
  deriving DecidableEq, Repr

structure Cpu (R : Type) (w : ℕ) where
  regs : R → BitVec w
  ip : BitVec w
  mem : Memory w

/-- Registers and the offsets of their slots in a frame. -/
abbrev Slots (R : Type) := List (R × ℕ)

/-- The slots lie apart in a frame of `size` bytes. -/
structure Layout (w : ℕ) (slots : Slots R) (size : ℕ) : Prop where
  apart : slots.Pairwise fun x y => x.2 + wordBytes w ≤ y.2 ∨ y.2 + wordBytes w ≤ x.2
  inside : ∀ x ∈ slots, x.2 + wordBytes w ≤ size
  fits : size ≤ 2 ^ w

def saves (base : R) (slots : Slots R) : List (Instr R) :=
  slots.map fun x => .store x.1 x.2 base

def restores (base : R) (slots : Slots R) : List (Instr R) :=
  slots.map fun x => .load x.2 base x.1

/-- The memory after a block of saves. -/
def saveAll (regs : R → BitVec w) (b : BitVec w) : Slots R → Memory w → Memory w
  | [], m => m
  | x :: slots, m => saveAll regs b slots (m.store (b + BitVec.ofNat w x.2) (regs x.1))

theorem saveAll_outside {regs : R → BitVec w} {b q : BitVec w} {slots : Slots R} {size : ℕ}
    (hslots : ∀ x ∈ slots, x.2 + wordBytes w ≤ size) (m : Memory w) (hq : ¬ Within b size q) :
    saveAll regs b slots m q = m q := by
  induction slots generalizing m with
  | nil => rfl
  | cons x slots ih =>
    rw [saveAll, ih fun y hy => hslots y (by simp [hy])]
    apply Memory.store_outside
    exact fun h => hq (within_of_part (hslots x (by simp)) h)

/-- A slot is not touched by saves to slots that lie apart from it. -/
theorem load_saveAll_apart {regs : R → BitVec w} {b : BitVec w} {d : ℕ} {slots : Slots R}
    (h : ∀ y ∈ slots, Apart (b + BitVec.ofNat w d) (wordBytes w) (b + BitVec.ofNat w y.2)
      (wordBytes w)) (m : Memory w) :
    (saveAll regs b slots m).load w (b + BitVec.ofNat w d) =
      m.load w (b + BitVec.ofNat w d) := by
  induction slots generalizing m with
  | nil => rfl
  | cons x slots ih =>
    rw [saveAll, ih fun y hy => h y (by simp [hy])]
    exact Memory.load_store_apart _ (h x (by simp))

theorem Layout.tail {x : R × ℕ} {slots : Slots R} {size : ℕ} (h : Layout w (x :: slots) size) :
    Layout w slots size :=
  ⟨h.apart.of_cons, fun y hy => h.inside y (by simp [hy]), h.fits⟩

theorem Layout.apart_head {x : R × ℕ} {slots : Slots R} {size : ℕ}
    (h : Layout w (x :: slots) size) (b : BitVec w) :
    ∀ y ∈ slots, Apart (b + BitVec.ofNat w x.2) (wordBytes w) (b + BitVec.ofNat w y.2)
      (wordBytes w) := by
  intro y hy
  have hx := h.inside x (by simp)
  have hy' := h.inside y (by simp [hy])
  have hfits := h.fits
  rcases List.rel_of_pairwise_cons h.apart hy with hlt | hgt
  · exact apart_offsets hlt (by omega)
  · exact (apart_offsets hgt (by omega)).symm

/-- Every register of a block of saves can be read back from its slot. -/
theorem load_saveAll {regs : R → BitVec w} {b : BitVec w} {slots : Slots R} {size : ℕ}
    (hlayout : Layout w slots size) {x : R × ℕ} (hx : x ∈ slots) (m : Memory w) :
    (saveAll regs b slots m).load w (b + BitVec.ofNat w x.2) = regs x.1 := by
  induction slots generalizing m with
  | nil => cases hx
  | cons y slots ih =>
    rcases List.mem_cons.mp hx with rfl | hx
    · rw [saveAll, load_saveAll_apart (hlayout.apart_head b)]
      have hinside := hlayout.inside x (by simp)
      have hfits := hlayout.fits
      exact Memory.load_store_same _ _ _ (by omega)
    · exact ih hlayout.tail hx _

section Run

variable [DecidableEq R]

namespace Cpu

/-- The address `disp(base)`. -/
def addr (s : Cpu R w) (disp : ℕ) (base : R) : BitVec w := s.regs base + BitVec.ofNat w disp

def setReg (s : Cpu R w) (r : R) (x : BitVec w) : Cpu R w :=
  { s with regs := Function.update s.regs r x }

/-- One instruction; `sp` is the stack pointer, which `ret` pops. A 32-bit instruction clears
the upper half of its destination. -/
def step (sp : R) (s : Cpu R w) : Instr R → Cpu R w
  | .load disp base dst => s.setReg dst (s.mem.load w (s.addr disp base))
  | .store src disp base => { s with mem := s.mem.store (s.addr disp base) (s.regs src) }
  | .mov32 src dst => s.setReg dst (((s.regs src).setWidth 32).setWidth w)
  | .xor32 src dst =>
    s.setReg dst (((s.regs src).setWidth 32 ^^^ (s.regs dst).setWidth 32).setWidth w)
  | .ret => { s.setReg sp (s.regs sp + BitVec.ofNat w (wordBytes w)) with
      ip := s.mem.load w (s.regs sp) }

/-- Run straight code. The instruction pointer is only looked at once it has returned. -/
def exec (sp : R) (code : List (Instr R)) (s : Cpu R w) : Cpu R w := code.foldl (step sp) s

theorem exec_append (sp : R) (c₁ c₂ : List (Instr R)) (s : Cpu R w) :
    exec sp (c₁ ++ c₂) s = exec sp c₂ (exec sp c₁ s) := List.foldl_append

end Cpu

/-- The registers after a block of restores. -/
def restoreAll (m : Memory w) (b : BitVec w) : Slots R → (R → BitVec w) → R → BitVec w
  | [], regs => regs
  | x :: slots, regs =>
    restoreAll m b slots (Function.update regs x.1 (m.load w (b + BitVec.ofNat w x.2)))

theorem exec_saves (sp base : R) (slots : Slots R) (s : Cpu R w) :
    s.exec sp (saves base slots) = { s with mem := saveAll s.regs (s.regs base) slots s.mem } := by
  induction slots generalizing s with
  | nil => rfl
  | cons x slots ih => exact ih _

theorem exec_restores (sp : R) {base : R} {slots : Slots R} (hbase : ∀ x ∈ slots, x.1 ≠ base)
    (s : Cpu R w) :
    s.exec sp (restores base slots) =
      { s with regs := restoreAll s.mem (s.regs base) slots s.regs } := by
  induction slots generalizing s with
  | nil => rfl
  | cons x slots ih =>
    have hkeep : Function.update s.regs x.1 (s.mem.load w (s.addr x.2 base)) base = s.regs base :=
      Function.update_of_ne (hbase x (by simp)).symm _ _
    have hrest := ih (fun y hy => hbase y (by simp [hy]))
      (s.setReg x.1 (s.mem.load w (s.addr x.2 base)))
    rw [Cpu.setReg] at hrest
    dsimp only at hrest
    rw [hkeep] at hrest
    exact hrest

theorem restoreAll_of_notMem {m : Memory w} {b : BitVec w} {slots : Slots R} {r : R}
    (hr : ∀ x ∈ slots, x.1 ≠ r) (regs : R → BitVec w) : restoreAll m b slots regs r = regs r := by
  induction slots generalizing regs with
  | nil => rfl
  | cons x slots ih =>
    rw [restoreAll, ih fun y hy => hr y (by simp [hy])]
    exact Function.update_of_ne (hr x (by simp)).symm _ _

/-- A block of restores with distinct registers leaves each with the word of its slot. -/
theorem restoreAll_of_mem {m : Memory w} {b : BitVec w} {slots : Slots R}
    (hnodup : (slots.map Prod.fst).Nodup) {x : R × ℕ} (hx : x ∈ slots) (regs : R → BitVec w) :
    restoreAll m b slots regs x.1 = m.load w (b + BitVec.ofNat w x.2) := by
  induction slots generalizing regs with
  | nil => cases hx
  | cons y slots ih =>
    obtain ⟨hy, hnodup⟩ := List.nodup_cons.mp hnodup
    rcases List.mem_cons.mp hx with rfl | hx
    · rw [restoreAll, restoreAll_of_notMem]
      · exact Function.update_self _ _ _
      · intro z hz he
        exact hy (List.mem_map.mpr ⟨z, hz, he⟩)
    · exact ih hnodup hx _

/-- Clear a register and return. -/
theorem exec_clear_ret {sp ax : R} (hne : ax ≠ sp) (s : Cpu R w) :
    s.exec sp [.xor32 ax ax, .ret] =
      { regs := Function.update (Function.update s.regs ax 0) sp
          (s.regs sp + BitVec.ofNat w (wordBytes w))
        ip := s.mem.load w (s.regs sp)
        mem := s.mem } := by
  have hzero : ((s.regs ax).setWidth 32 ^^^ (s.regs ax).setWidth 32).setWidth w = 0 := by
    rw [BitVec.xor_self]
    simp
  simp only [Cpu.exec, List.foldl_cons, List.foldl_nil, Cpu.step, Cpu.setReg, hzero,
    Function.update_of_ne hne.symm]

omit [DecidableEq R] in
@[simp] theorem Cpu.addr_zero (s : Cpu R w) (base : R) : s.addr 0 base = s.regs base :=
  BitVec.add_zero _

/-- Move a word through `t` to the top of the stack and return to it. -/
theorem exec_jump {sp base t : R} (hne : t ≠ sp) (hw : wordBytes w ≤ 2 ^ w) (s : Cpu R w) :
    s.exec sp [.load 0 base t, .store t 0 sp, .ret] =
      { regs := Function.update (Function.update s.regs t (s.mem.load w (s.regs base))) sp
          (s.regs sp + BitVec.ofNat w (wordBytes w))
        ip := s.mem.load w (s.regs base)
        mem := s.mem.store (s.regs sp) (s.mem.load w (s.regs base)) } := by
  simp only [Cpu.exec, List.foldl_cons, List.foldl_nil, Cpu.step, Cpu.setReg, Cpu.addr_zero,
    Function.update_of_ne hne.symm, Function.update_self, Memory.load_store_same _ _ _ hw]

end Run

end PcmTest.Theory
