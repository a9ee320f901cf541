import PcmTest.Theory.MoveCode

/-!
# Machine code in memory

An emitter writes bytes and little-endian words one after the other. A processor
fetches what it finds at its instruction pointer: `decode` covers three encodings
of x86-64, an immediate taken from a register, an immediate moved to the stack
frame, and a relative jump. Decoding reads nothing but the bytes of the
instruction, so it works wherever the code `Holds`.
-/

namespace PcmTest.Theory

namespace MachineCode

/-- What an emitter writes at a time. -/
inductive Item where
  | byte (x : BitVec 8)
  | word (x : BitVec 32)
  deriving DecidableEq, Repr

def Item.size : Item → ℕ
  | .byte _ => 1
  | .word _ => 4

def size : List Item → ℕ
  | [] => 0
  | i :: is => i.size + size is

@[simp] theorem size_nil : size [] = 0 := rfl

@[simp] theorem size_cons (i : Item) (is : List Item) : size (i :: is) = i.size + size is := rfl

section Emit

variable {a : ℕ}

def put (m : Memory a) (p : BitVec a) : Item → Memory a
  | .byte x => m.store p x
  | .word x => m.store p x

/-- Write items from `p` on. -/
def emit (p : BitVec a) : List Item → Memory a → Memory a
  | [], m => m
  | i :: is, m => emit (p + BitVec.ofNat a i.size) is (put m p i)

def HoldsItem (m : Memory a) (p : BitVec a) : Item → Prop
  | .byte x => m p = x
  | .word x => m.load 32 p = x

/-- The items are in memory from `p` on. -/
def Holds (m : Memory a) (p : BitVec a) : List Item → Prop
  | [] => True
  | i :: is => HoldsItem m p i ∧ Holds m (p + BitVec.ofNat a i.size) is

theorem put_outside {m : Memory a} {p q : BitVec a} (i : Item) (h : ¬ Within p i.size q) :
    put m p i q = m q := by
  cases i with
  | byte x => exact Memory.store_outside x h
  | word x => exact Memory.store_outside x h

/-- The later part of a range. -/
theorem within_rest {p q : BitVec a} {n k : ℕ} (h : Within (p + BitVec.ofNat a n) k q) :
    Within p (n + k) q :=
  within_of_part (Nat.le_refl _) h

theorem within_first {p q : BitVec a} {n k : ℕ} (h : Within p n q) : Within p (n + k) q :=
  Nat.lt_of_lt_of_le h (Nat.le_add_right _ _)

theorem emit_outside {m : Memory a} {p q : BitVec a} (items : List Item)
    (h : ¬ Within p (size items) q) : emit p items m q = m q := by
  induction items generalizing p m with
  | nil => rfl
  | cons i is ih =>
    rw [size_cons] at h
    rw [emit, ih fun hq => h (within_rest hq), put_outside]
    exact fun hq => h (within_first hq)

theorem HoldsItem.congr {m m' : Memory a} {p : BitVec a} {i : Item}
    (h : ∀ q, Within p i.size q → m' q = m q) (hi : HoldsItem m p i) : HoldsItem m' p i := by
  cases i with
  | byte x =>
    have hp := h (p + BitVec.ofNat a 0) (within_add Nat.one_pos)
    rw [BitVec.add_zero] at hp
    exact hp.trans hi
  | word x => exact (Memory.load_congr h).trans hi

/-- Code is what its bytes are. -/
theorem Holds.congr {m m' : Memory a} {p : BitVec a} {items : List Item}
    (h : ∀ q, Within p (size items) q → m' q = m q) (hi : Holds m p items) :
    Holds m' p items := by
  induction items generalizing p with
  | nil => trivial
  | cons i is ih =>
    rw [size_cons] at h
    exact ⟨hi.1.congr fun q hq => h q (within_first hq), ih (fun q hq => h q (within_rest hq)) hi.2⟩

theorem holdsItem_put (m : Memory a) (p : BitVec a) {i : Item} (hi : i.size ≤ 2 ^ a) :
    HoldsItem (put m p i) p i := by
  cases i with
  | byte x => exact Memory.store_byte m p x
  | word x => exact Memory.load_store_same m p x hi

/-- What was emitted is there, if it does not run into itself. -/
theorem holds_emit (m : Memory a) (p : BitVec a) {items : List Item}
    (h : size items ≤ 2 ^ a) : Holds (emit p items m) p items := by
  induction items generalizing p m with
  | nil => trivial
  | cons i is ih =>
    rw [size_cons] at h
    refine ⟨?_, ih _ _ (by omega)⟩
    apply (holdsItem_put m p (i := i) (by omega)).congr
    intro q hq
    rw [emit]
    apply emit_outside
    have hapart : Apart (p + BitVec.ofNat a 0) i.size (p + BitVec.ofNat a i.size) (size is) :=
      apart_offsets (by omega) (by omega)
    rw [BitVec.add_zero] at hapart
    exact hapart q hq

theorem emit_append (p : BitVec a) (xs ys : List Item) (m : Memory a) :
    emit p (xs ++ ys) m = emit (p + BitVec.ofNat a (size xs)) ys (emit p xs m) := by
  induction xs generalizing p m with
  | nil =>
    rw [size_nil, BitVec.add_zero]
    rfl
  | cons x xs ih =>
    rw [List.cons_append, emit, ih, size_cons, BitVec.ofNat_add, ← BitVec.add_assoc]
    rfl

theorem holds_append {m : Memory a} {p : BitVec a} {xs ys : List Item} :
    Holds m p (xs ++ ys) ↔ Holds m p xs ∧ Holds m (p + BitVec.ofNat a (size xs)) ys := by
  induction xs generalizing p with
  | nil => simp [Holds]
  | cons x xs ih =>
    rw [List.cons_append, Holds, Holds, ih, size_cons, BitVec.ofNat_add, ← BitVec.add_assoc,
      and_assoc]

end Emit

section Execute

variable {R : Type}

/-- A decoded instruction: `sub $imm, dst`, `movl $imm, disp(base)` and `jmp rel`. -/
inductive Op (R : Type) where
  | subImm (imm : BitVec 8) (dst : R)
  | storeImm (imm : BitVec 32) (disp : BitVec 8) (base : R)
  | jump (rel : BitVec 32)
  deriving DecidableEq, Repr

def modField (modrm : BitVec 8) : BitVec 2 := modrm.extractLsb' 6 2
def regField (modrm : BitVec 8) : BitVec 3 := modrm.extractLsb' 3 3
def rmField (modrm : BitVec 8) : BitVec 3 := modrm.extractLsb' 0 3

/-- Decode the instruction at `p`, with its length. `reg` names the registers of the low half
by their numbers. -/
def decode (reg : BitVec 3 → R) (m : Memory 64) (p : BitVec 64) : Option (Op R × ℕ) :=
  if m p = 0x48 ∧ m (p + 1#64) = 0x83 then
    -- REX.W 83 /5 ib, with a register operand
    if modField (m (p + 2#64)) = 3 ∧ regField (m (p + 2#64)) = 5 then
      some (.subImm (m (p + 3#64)) (reg (rmField (m (p + 2#64)))), 4)
    else none
  else if m p = 0xc7 then
    -- C7 /0 id; rm = 4 announces a second byte, whose index 4 is no index
    if regField (m (p + 1#64)) = 0 ∧ rmField (m (p + 1#64)) = 4 ∧ regField (m (p + 2#64)) = 4 then
      if modField (m (p + 1#64)) = 0 ∧ rmField (m (p + 2#64)) ≠ 5 then
        some (.storeImm (m.load 32 (p + 3#64)) 0 (reg (rmField (m (p + 2#64)))), 7)
      else if modField (m (p + 1#64)) = 1 then
        some (.storeImm (m.load 32 (p + 4#64)) (m (p + 3#64)) (reg (rmField (m (p + 2#64)))), 8)
      else none
    else none
  else if m p = 0xe9 then
    some (.jump (m.load 32 (p + 1#64)), 5)
  else none

section Encodings

variable (reg : BitVec 3 → R) {m : Memory 64} {p : BitVec 64}

theorem decode_subImm {modrm imm : BitVec 8} (hmod : modField modrm = 3)
    (hreg : regField modrm = 5)
    (h : Holds m p [.byte 0x48, .byte 0x83, .byte modrm, .byte imm]) :
    decode reg m p = some (.subImm imm (reg (rmField modrm)), 4) := by
  simp only [Holds, HoldsItem, Item.size, BitVec.add_assoc, BitVec.reduceAdd] at h
  obtain ⟨h₀, h₁, h₂, h₃, -⟩ := h
  simp [decode, h₀, h₁, h₂, h₃, hmod, hreg]

theorem decode_storeImm {modrm sib : BitVec 8} {imm : BitVec 32} (hmod : modField modrm = 0)
    (hreg : regField modrm = 0) (hrm : rmField modrm = 4) (hindex : regField sib = 4)
    (hbase : rmField sib ≠ 5)
    (h : Holds m p [.byte 0xc7, .byte modrm, .byte sib, .word imm]) :
    decode reg m p = some (.storeImm imm 0 (reg (rmField sib)), 7) := by
  simp only [Holds, HoldsItem, Item.size, BitVec.add_assoc, BitVec.reduceAdd] at h
  obtain ⟨h₀, h₁, h₂, h₃, -⟩ := h
  simpa [decode, h₀, h₁, h₂, h₃, hmod, hreg, hrm, hindex] using hbase

theorem decode_storeImm_disp {modrm sib disp : BitVec 8} {imm : BitVec 32}
    (hmod : modField modrm = 1) (hreg : regField modrm = 0) (hrm : rmField modrm = 4)
    (hindex : regField sib = 4)
    (h : Holds m p [.byte 0xc7, .byte modrm, .byte sib, .byte disp, .word imm]) :
    decode reg m p = some (.storeImm imm disp (reg (rmField sib)), 8) := by
  simp only [Holds, HoldsItem, Item.size, BitVec.add_assoc, BitVec.reduceAdd] at h
  obtain ⟨h₀, h₁, h₂, h₃, h₄, -⟩ := h
  simp [decode, h₀, h₁, h₂, h₃, h₄, hmod, hreg, hrm, hindex]

theorem decode_jump {rel : BitVec 32} (h : Holds m p [.byte 0xe9, .word rel]) :
    decode reg m p = some (.jump rel, 5) := by
  simp only [Holds, HoldsItem, Item.size] at h
  obtain ⟨h₀, h₁, -⟩ := h
  simp [decode, h₀, h₁]

end Encodings

variable [DecidableEq R]

/-- The effect of an instruction when `ip` is past it, flags aside. -/
def Op.exec (s : Cpu R 64) : Op R → Cpu R 64
  | .subImm imm dst => s.setReg dst (s.regs dst - imm.signExtend 64)
  | .storeImm imm disp base =>
    { s with mem := s.mem.store (s.regs base + disp.signExtend 64) imm }
  | .jump rel => { s with ip := s.ip + rel.signExtend 64 }

/-- Fetch, decode and execute one instruction. -/
def step (reg : BitVec 3 → R) (s : Cpu R 64) : Option (Cpu R 64) :=
  (decode reg s.mem s.ip).map fun r => r.1.exec { s with ip := s.ip + BitVec.ofNat 64 r.2 }

/-- Execute `n` instructions. -/
def run (reg : BitVec 3 → R) : ℕ → Cpu R 64 → Option (Cpu R 64)
  | 0, s => some s
  | n + 1, s => (step reg s).bind (run reg n)

theorem run_succ {reg : BitVec 3 → R} {s : Cpu R 64} {op : Op R} {len : ℕ}
    (h : decode reg s.mem s.ip = some (op, len)) (n : ℕ) :
    run reg (n + 1) s = run reg n (op.exec { s with ip := s.ip + BitVec.ofNat 64 len }) := by
  rw [run, step, h]
  rfl

/-- Truncation to 32 bits keeps a signed number exactly when it fits. -/
theorem signExtend_setWidth_iff (x : BitVec 64) :
    (x.setWidth 32).signExtend 64 = x ↔ -2 ^ 31 ≤ x.toInt ∧ x.toInt < 2 ^ 31 := by
  have hbmod : ((x.setWidth 32).signExtend 64).toInt = x.toInt.bmod (2 ^ 32) := by
    rw [BitVec.toInt_signExtend_of_le (by decide), BitVec.toInt_setWidth,
      BitVec.toInt_eq_toNat_bmod, Int.bmod_bmod_of_dvd (by decide)]
  rw [← BitVec.toInt_inj, hbmod]
  constructor
  · intro h
    rw [← h]
    exact ⟨Int.le_bmod (by decide), Int.bmod_lt (by decide)⟩
  · rintro ⟨hle, hlt⟩
    exact Int.bmod_eq_of_le hle hlt

/-- A relative jump with a truncated displacement arrives exactly when the distance fits. -/
theorem jump_arrives_iff (next target : BitVec 64) :
    next + ((target - next).setWidth 32).signExtend 64 = target ↔
      -2 ^ 31 ≤ (target - next).toInt ∧ (target - next).toInt < 2 ^ 31 := by
  rw [← signExtend_setWidth_iff]
  constructor
  · exact fun h => eq_sub_of_add_eq' h
  · intro h
    rw [h]
    exact add_sub_cancel _ _

end Execute

end MachineCode

end PcmTest.Theory
