import PcmTest.Ioapic.Board

/-!
# A handler between two accesses of `set_mask`

The handler and the interrupted call share the index register, and neither saves
it. After a transfer the next access selects again and nothing is lost; between
a selection and its transfer the transfer goes to the register that the handler
selected last.
-/

namespace PcmTest.Ioapic

open Theory RedirEntry

def handlerSetMask (out : Outside) (line mask : U32) (b : Board) : Board :=
  ((setMask line mask).exec (Board.access out) b).2

/-- The registers after `set_mask(A, m)` when the handler calls `set_mask(B, m')` after its
first `k` accesses. -/
def preemptedTable (out : Outside) (A m B m' : U32) (k : ℕ) (b : Board) : U32 → U32 :=
  ((setMask A m).execAt (Board.access out) (handlerSetMask out B m') k b).2.regs

/-- The handler's call runs entirely before the main-line call. -/
def tableBefore (out : Outside) (A m B m' : U32) (b : Board) : U32 → U32 :=
  ((setMask A m).exec (Board.access out) (handlerSetMask out B m' b)).2.regs

/-- The handler's call runs entirely after the main-line call. -/
def tableAfter (out : Outside) (A m B m' : U32) (b : Board) : U32 → U32 :=
  (handlerSetMask out B m' ((setMask A m).exec (Board.access out) b).2).regs

/-- The preempted call leaves what one of the two orders leaves. -/
def Serial (out : Outside) (A m B m' : U32) (k : ℕ) (b : Board) : Prop :=
  preemptedTable out A m B m' k b = tableBefore out A m B m' b ∨
    preemptedTable out A m B m' k b = tableAfter out A m B m' b

/-- What a handler between a selection and its transfer must find for the transfer to do no
harm: the misdirected access meets the contents it was meant for. -/
def HarmlessAt (A m B : U32) (regs : U32 → U32) : ℕ → Prop
  | 1 => SameButMask (regs (hiReg B)) (regs (loReg A))
  | 3 => regs (hiReg B) = regs (hiReg A)
  | 5 => loReg A = loReg B ∨
      maskWord (regs (loReg A)) m = regs (loReg A) ∧ regs (hiReg B) = regs (loReg A)
  | 7 => regs (hiReg B) = regs (hiReg A)
  | _ => True

def SerialTable (A m B m' : U32) (regs table : U32 → U32) : Prop :=
  table = maskEntry A m (maskEntry B m' regs) ∨ table = maskEntry B m' (maskEntry A m regs)

/-- The registers that each preemption point leaves. -/
def interleaved (A m B m' : U32) (regs : U32 → U32) : ℕ → U32 → U32
  | 1 => Function.update (maskEntry B m' regs) (loReg A) (maskWord (regs (hiReg B)) m)
  | 3 => Function.update (maskEntry A m (maskEntry B m' regs)) (hiReg A) (regs (hiReg B))
  | 5 => Function.update
      (Function.update (maskEntry B m' regs) (hiReg B) (maskWord (regs (loReg A)) m))
      (hiReg A) (regs (hiReg A))
  | 7 => Function.update (maskEntry B m' (maskEntry A m regs)) (hiReg B) (regs (hiReg A))
  | 0 | 2 | 4 => maskEntry A m (maskEntry B m' regs)
  | _ => maskEntry B m' (maskEntry A m regs)

section Points

variable (out : Outside) (A m B m' : U32) (b : Board)

@[simp] theorem execAt_selectReg {α : Type} (isr : Board → Board) (k : ℕ) (reg : U32)
    (next : Unit → IoapicProg α) :
    ((mmioWrite indexOffset reg).bind next).execAt (Board.access out) isr (k + 1) b =
      (next ()).execAt (Board.access out) isr k { b with index := reg } := rfl

@[simp] theorem execAt_writeData {α : Type} (isr : Board → Board) (k : ℕ) (value : U32)
    (next : Unit → IoapicProg α) :
    ((mmioWrite dataOffset value).bind next).execAt (Board.access out) isr (k + 1) b =
      (next ()).execAt (Board.access out) isr k
        { b with regs := Function.update b.regs b.index value } := rfl

@[simp] theorem execAt_readData {α : Type} (isr : Board → Board) (k : ℕ)
    (next : U32 → IoapicProg α) :
    ((mmioRead dataOffset).bind next).execAt (Board.access out) isr (k + 1) b =
      (next (b.regs b.index)).execAt (Board.access out) isr k b := rfl

@[simp] theorem execAt_mmioWrite (isr : Board → Board) (k : ℕ) (value : U32) :
    (mmioWrite dataOffset value).execAt (Board.access out) isr (k + 1) b =
      ((), isr { b with regs := Function.update b.regs b.index value }) := by
  cases k <;> rfl

@[simp] theorem regs_handlerSetMask :
    (handlerSetMask out B m' b).regs = maskEntry B m' b.regs := by
  rw [handlerSetMask, exec_setMask]

@[simp] theorem index_handlerSetMask : (handlerSetMask out B m' b).index = hiReg B := by
  rw [handlerSetMask, exec_setMask]

theorem tableBefore_eq : tableBefore out A m B m' b = maskEntry A m (maskEntry B m' b.regs) := by
  rw [tableBefore, exec_setMask, regs_handlerSetMask]

theorem tableAfter_eq : tableAfter out A m B m' b = maskEntry B m' (maskEntry A m b.regs) := by
  rw [tableAfter, exec_setMask, regs_handlerSetMask]

/-- The later call decides its own entry, whatever the earlier one did there. -/
theorem maskEntry_maskEntry (regs : U32 → U32) :
    maskEntry A m (maskEntry B m' regs) =
      Function.update (maskEntry B m' regs) (loReg A) (maskWord (regs (loReg A)) m) := by
  have hword : maskWord (maskEntry B m' regs (loReg A)) m = maskWord (regs (loReg A)) m := by
    by_cases h : loReg A = loReg B
    · rw [maskEntry, h, Function.update_self, maskWord_maskWord]
    · rw [maskEntry_of_ne h]
  rw [← hword]
  rfl

theorem preemptedTable_eq (k : ℕ) :
    preemptedTable out A m B m' k b = interleaved A m B m' b.regs k := by
  rw [preemptedTable, setMask_eq]
  simp only [Prog.bind_eq]
  match k with
  | 0 => simp [interleaved]
  | 1 => simp [interleaved]
  | 2 => simp [interleaved, maskEntry_maskEntry]
  | 3 => simp [interleaved, maskEntry_maskEntry]
  | 4 => simp [interleaved, maskEntry_maskEntry]
  | 5 => simp [interleaved]
  | 6 => simp [interleaved]
  | 7 => simp [interleaved]
  | k + 8 => simp [interleaved]

variable {A m B m'} {regs table : U32 → U32}

theorem SerialTable.loReg (h : SerialTable A m B m' regs table) :
    ∃ mask, table (loReg A) = maskWord (regs (loReg A)) mask := by
  rcases h with rfl | rfl
  · exact ⟨m, by rw [maskEntry_maskEntry, Function.update_self]⟩
  · by_cases hlo : loReg A = loReg B
    · exact ⟨m', by rw [maskEntry_maskEntry, ← hlo, Function.update_self]⟩
    · exact ⟨m, by rw [maskEntry_of_ne hlo, maskEntry, Function.update_self]⟩

theorem SerialTable.hiReg (h : SerialTable A m B m' regs table) (line : U32) :
    table (hiReg line) = regs (hiReg line) := by
  rcases h with rfl | rfl
  · rw [maskEntry_hiReg, maskEntry_hiReg]
  · rw [maskEntry_hiReg, maskEntry_hiReg]

/-- The low word was read from the handler's register. -/
theorem serial_wrongLow :
    SerialTable A m B m' regs (interleaved A m B m' regs 1) ↔
      SameButMask (regs (hiReg B)) (regs (loReg A)) := by
  constructor
  · intro h
    obtain ⟨mask, hmask⟩ := h.loReg
    rw [interleaved, Function.update_self] at hmask
    exact sameButMask_of_eq hmask
  · intro h
    left
    rw [interleaved, maskWord_congr h, maskEntry_maskEntry]

/-- The high word was read from the handler's register. -/
theorem serial_wrongHigh :
    SerialTable A m B m' regs (interleaved A m B m' regs 3) ↔
      regs (hiReg B) = regs (hiReg A) := by
  constructor
  · intro h
    have hhi := h.hiReg A
    rwa [interleaved, Function.update_self] at hhi
  · intro h
    left
    rw [interleaved, h, ← maskEntry_hiReg B A m' regs]
    exact maskEntry_writeBack _ _ _ _

/-- On different entries the order of the calls does not matter. -/
theorem serialTable_iff (hlo : loReg A ≠ loReg B) :
    SerialTable A m B m' regs table ↔ table = maskEntry A m (maskEntry B m' regs) := by
  rw [SerialTable, maskEntry_comm hlo]
  exact or_self_iff

/-- The low word was written to the handler's register. -/
theorem serial_lostLow :
    SerialTable A m B m' regs (interleaved A m B m' regs 5) ↔
      loReg A = loReg B ∨
        maskWord (regs (loReg A)) m = regs (loReg A) ∧ regs (hiReg B) = regs (loReg A) := by
  constructor
  · intro h
    by_cases hlo : loReg A = loReg B
    · exact .inl hlo
    have hlow := congrFun ((serialTable_iff hlo).mp h) (loReg A)
    have hhigh := h.hiReg B
    rw [interleaved, Function.update_of_ne (loReg_ne_hiReg A A),
      Function.update_of_ne (loReg_ne_hiReg A B), maskEntry_of_ne hlo, maskEntry_maskEntry,
      Function.update_self] at hlow
    rw [interleaved, Function.update_of_ne (fun h => hlo (hiReg_inj.mp h.symm)),
      Function.update_self] at hhigh
    exact .inr ⟨hlow.symm, hhigh.symm.trans hlow.symm⟩
  · intro h
    by_cases hlo : loReg A = loReg B
    · right
      rw [interleaved, hiReg_inj.mpr hlo, Function.update_idem, maskEntry_writeBack,
        maskEntry_same hlo.symm]
    · obtain ⟨hword, hhigh⟩ := h.resolve_left hlo
      have hback : maskEntry A m (maskEntry B m' regs) = maskEntry B m' regs := by
        rw [maskEntry_maskEntry, hword, ← maskEntry_of_ne hlo m' regs]
        exact Function.update_eq_self _ _
      left
      rw [interleaved, hword, ← hhigh, maskEntry_writeBack, maskEntry_writeBack, hback]

/-- The high word was written to the handler's register. -/
theorem serial_misplacedHigh :
    SerialTable A m B m' regs (interleaved A m B m' regs 7) ↔
      regs (hiReg B) = regs (hiReg A) := by
  constructor
  · intro h
    have hhi := h.hiReg B
    rw [interleaved, Function.update_self] at hhi
    exact hhi.symm
  · intro h
    right
    rw [interleaved, ← h, ← maskEntry_hiReg A B m regs]
    exact maskEntry_writeBack _ _ _ _

/-- Where the shared index register loses the call, point by point. -/
theorem serialTable_interleaved (k : ℕ) :
    SerialTable A m B m' regs (interleaved A m B m' regs k) ↔ HarmlessAt A m B regs k := by
  match k with
  | 0 => exact ⟨fun _ => trivial, fun _ => .inl rfl⟩
  | 1 => exact serial_wrongLow
  | 2 => exact ⟨fun _ => trivial, fun _ => .inl rfl⟩
  | 3 => exact serial_wrongHigh
  | 4 => exact ⟨fun _ => trivial, fun _ => .inl rfl⟩
  | 5 => exact serial_lostLow
  | 6 => exact ⟨fun _ => trivial, fun _ => .inr rfl⟩
  | 7 => exact serial_misplacedHigh
  | k + 8 => exact ⟨fun _ => trivial, fun _ => .inr rfl⟩

end Points

/-- A handler's `set_mask` inside a main-line `set_mask` is serialized at every point after a
transfer. Between a selection and its transfer it is exactly when the handler's register holds
what the misdirected transfer was meant to find or to leave. -/
theorem setMask_preempted_iff (out : Outside) (A m B m' : U32) (k : ℕ) (b : Board) :
    Serial out A m B m' k b ↔ HarmlessAt A m B b.regs k := by
  rw [Serial, preemptedTable_eq, tableBefore_eq, tableAfter_eq]
  exact serialTable_interleaved k

/-- Entry 0x0e as `test_ioapic_level_retrigger_mask` sets it up. -/
def retriggerMaskBoard : Board where
  index := 0
  regs := Function.update (fun _ => 0) (loReg 0x0e) 0x8083
  ports := fun _ => 0
  vars := fun _ => 0
  irqFlag := true

/-- A handler after the first selection makes the main-line call read the high word for the
low one, and the vector and the trigger mode are lost. -/
theorem setMask_preempted_torn :
    ¬ ∀ (out : Outside) (A m B m' : U32) (k : ℕ) (b : Board), 1 ≤ k → k ≤ 7 →
      Serial out A m B m' k b := by
  intro h
  have hserial := h (fun _ => default) 0x0e 0 0x0e 1 1 retriggerMaskBoard (by decide) (by decide)
  rw [Serial, preemptedTable_eq, tableBefore_eq, tableAfter_eq] at hserial
  exact absurd (serial_wrongLow.mp hserial) (by decide)

end PcmTest.Ioapic
