import PcmTest.Ioapic.Board

/-!
# Redirection entries in the table

An entry is read and written as two words through the index register. Read back
it is the entry that was written, and no other register changes. The two words
are written one after the other, so between them the table holds half of each.
-/

namespace PcmTest.Ioapic

open Theory RedirEntry

/-- The redirection entry of a line, as its two registers give it. -/
def entry (line : U32) (regs : U32 → U32) : BitVec 64 := regs (hiReg line) ++ regs (loReg line)

namespace RedirEntry

def word (e : RedirEntry) : BitVec 64 := e.hi ++ e.lo

/-- The fields of `e` at their places in a redirection entry. -/
structure FieldsAt (e : RedirEntry) (w : BitVec 64) : Prop where
  vector : w.extractLsb' 0 8 = e.vector
  deliveryMode : w.extractLsb' 8 3 = e.deliveryMode
  destMode : w.extractLsb' 11 1 = e.destMode
  deliveryStatus : w.extractLsb' 12 1 = e.deliveryStatus
  polarity : w.extractLsb' 13 1 = e.polarity
  remoteIrr : w.extractLsb' 14 1 = e.remoteIrr
  trigMode : w.extractLsb' 15 1 = e.trigMode
  mask : w.extractLsb' 16 1 = e.mask
  reserve : w.extractLsb' 17 7 = e.reserve
  reserved : w.extractLsb' 24 32 = e.reserved
  destId : w.extractLsb' 56 8 = e.destId

theorem fieldsAt_word (e : RedirEntry) : FieldsAt e e.word := by
  constructor
  -- `reserved` lies in both words
  case reserved =>
    apply BitVec.eq_of_getLsbD_eq
    intro i hi
    simp only [word, lo, RedirEntry.hi, BitVec.getLsbD_append, BitVec.getLsbD_extractLsb']
    interval_cases i <;> simp
  all_goals
    unfold word lo RedirEntry.hi
    simp (disch := decide) only [BitVec.extractLsb'_append_eq_of_le,
      BitVec.extractLsb'_append_eq_of_add_le]
    exact BitVec.extractLsb'_eq_self

/-- The places cover the word, so it determines the entry. -/
theorem FieldsAt.unique {e e' : RedirEntry} {w : BitVec 64} (h : FieldsAt e w)
    (h' : FieldsAt e' w) : e = e' := by
  obtain ⟨h₁, h₂, h₃, h₄, h₅, h₆, h₇, h₈, h₉, h₁₀, h₁₁⟩ := h
  obtain ⟨h₁', h₂', h₃', h₄', h₅', h₆', h₇', h₈', h₉', h₁₀', h₁₁'⟩ := h'
  cases e
  cases e'
  simp_all

theorem ofWords_words (e : RedirEntry) : ofWords e.lo e.hi = e := by
  have hword : (ofWords e.lo e.hi).word = e.word := by
    unfold word
    rw [lo_ofWords, hi_ofWords]
  have hfields := fieldsAt_word (ofWords e.lo e.hi)
  rw [hword] at hfields
  exact hfields.unique (fieldsAt_word e)

end RedirEntry

section Accesses

variable (out : Outside) (line : U32) (b : Board)

theorem ioapicReadRedir_eq :
    ioapicReadRedir line = (do
      mmioWrite indexOffset (loReg line)
      let lo ← mmioRead dataOffset
      mmioWrite indexOffset (hiReg line)
      let hi ← mmioRead dataOffset
      return ofWords lo hi) := by
  simp only [ioapicReadRedir, ioapicReadReg, Prog.bind_eq, Prog.bind_assoc, Prog.pure_eq]
  rfl

theorem ioapicWriteRedir_eq (e : RedirEntry) :
    ioapicWriteRedir line e = (do
      mmioWrite indexOffset (loReg line)
      mmioWrite dataOffset e.lo
      mmioWrite indexOffset (hiReg line)
      mmioWrite dataOffset e.hi) := by
  simp only [ioapicWriteRedir, ioapicWriteReg, Prog.bind_eq, Prog.bind_assoc]
  rfl

/-- Both registers of a line with the words of `e`. -/
def writeEntry (e : RedirEntry) (regs : U32 → U32) : U32 → U32 :=
  Function.update (Function.update regs (loReg line) e.lo) (hiReg line) e.hi

theorem exec_ioapicWriteRedir (e : RedirEntry) :
    (ioapicWriteRedir line e).exec (Board.access out) b =
      ((), { b with index := hiReg line, regs := writeEntry line e b.regs }) := by
  rw [ioapicWriteRedir_eq]
  simp [writeEntry]

theorem exec_ioapicReadRedir :
    (ioapicReadRedir line).exec (Board.access out) b =
      (ofWords (b.regs (loReg line)) (b.regs (hiReg line)), { b with index := hiReg line }) := by
  rw [ioapicReadRedir_eq]
  simp

end Accesses

section Masks

structure MaskCall where
  line : U32
  mask : U32
  deriving DecidableEq, Repr

def setMasks (calls : List MaskCall) : IoapicProg (List Unit) :=
  Prog.forEach (fun call => setMask call.line call.mask) calls

/-- The mask of the last call on the registers of `line`. -/
def lastMask (line : U32) : List MaskCall → Option U32
  | [] => none
  | call :: calls =>
    (lastMask line calls).or (if loReg call.line = loReg line then some call.mask else none)

/-- The low word of a line after a mask call on its registers, if there was one. -/
def maskedBy (mask : Option U32) (word : U32) : U32 := mask.elim word (maskWord word)

/-- The registers of `line` do not wrap. -/
def NoWrap (line : U32) : Prop := 0x10 + line.toNat * 2 + 1 < 2 ^ 32

/-- Lines that do not wrap have registers of their own. -/
theorem loReg_inj {line line' : U32} (h : NoWrap line) (h' : NoWrap line') :
    loReg line = loReg line' ↔ line = line' := by
  unfold NoWrap at h h'
  unfold loReg
  constructor
  · intro he
    bv_omega
  · rintro rfl
    rfl

/-- A sequence of calls leaves each low word as its last call does, and every high word. -/
theorem maskEntries (line : U32) (calls : List MaskCall) (regs : U32 → U32) :
    let after := calls.foldl (fun regs call => maskEntry call.line call.mask regs) regs
    after (loReg line) = maskedBy (lastMask line calls) (regs (loReg line)) ∧
      after (hiReg line) = regs (hiReg line) := by
  induction calls generalizing regs with
  | nil => exact ⟨rfl, rfl⟩
  | cons call calls ih =>
    obtain ⟨hlo, hhi⟩ := ih (maskEntry call.line call.mask regs)
    refine ⟨hlo.trans ?_, hhi.trans (maskEntry_hiReg _ _ _ _)⟩
    rw [lastMask]
    by_cases hsame : loReg call.line = loReg line
    · have hword : maskEntry call.line call.mask regs (loReg line) =
          maskWord (regs (loReg line)) call.mask := by
        rw [maskEntry, hsame, Function.update_self]
      rw [hword, if_pos hsame]
      cases lastMask line calls with
      | none => rfl
      | some mask => exact maskWord_maskWord _ _ _
    · rw [maskEntry_of_ne (Ne.symm hsame), if_neg hsame, Option.or_none]

theorem regs_setMasks (out : Outside) (calls : List MaskCall) (b : Board) :
    ((setMasks calls).exec (Board.access out) b).2.regs =
      calls.foldl (fun regs call => maskEntry call.line call.mask regs) b.regs := by
  have hexec := Prog.exec_forEach (Board.access out) (fun call => setMask call.line call.mask)
    (fun call b => { b with
      index := hiReg call.line
      regs := maskEntry call.line call.mask b.regs })
    (fun call b => by rw [exec_setMask]) calls b
  rw [setMasks, hexec]
  clear hexec
  induction calls generalizing b with
  | nil => rfl
  | cons call calls ih => exact ih _

/-- The bits of an entry whose low word was masked. -/
theorem getLsbD_entry_maskedBy (mask : Option U32) (hi lo : U32) {i : ℕ} (h : i < 64) :
    (hi ++ maskedBy mask lo).getLsbD i =
      if i = 16 then mask.elim (lo.getLsbD 16) fun m => m.getLsbD 0
      else (hi ++ lo).getLsbD i := by
  rw [BitVec.getLsbD_append, BitVec.getLsbD_append]
  by_cases hlow : i < 32
  · rw [if_pos hlow, if_pos hlow]
    cases mask with
    | none =>
      split_ifs with hi16
      · rw [hi16]
        rfl
      · rfl
    | some m => exact getLsbD_maskWord lo m hlow
  · rw [if_neg hlow, if_neg hlow, if_neg (by omega)]

theorem lastMask_mem {line mask : U32} {calls : List MaskCall}
    (h : lastMask line calls = some mask) : ∃ call ∈ calls, call.mask = mask := by
  induction calls with
  | nil => cases h
  | cons call calls ih =>
    rw [lastMask] at h
    cases hrest : lastMask line calls with
    | some m =>
      rw [hrest, Option.some_or] at h
      obtain ⟨call', hmem, hmask⟩ := ih (hrest.trans h)
      exact ⟨call', by simp [hmem], hmask⟩
    | none =>
      rw [hrest, Option.none_or] at h
      split_ifs at h
      exact ⟨call, by simp, Option.some.inj h⟩

end Masks

section Contract

/-- What a write of `e` owes to the table: it is read back, its fields are in place, and no
other register changes. -/
def WritesEntry (out : Outside) (line : U32) (e : RedirEntry) (b : Board) : Prop :=
  let b' := ((ioapicWriteRedir line e).exec (Board.access out) b).2
  ((ioapicReadRedir line).exec (Board.access out) b').1 = e ∧ e.FieldsAt (entry line b'.regs) ∧
    ∀ reg, reg ≠ loReg line → reg ≠ hiReg line → b'.regs reg = b.regs reg

/-- The mask bit of an entry as a word. -/
def maskBit (w : BitVec 64) : U32 := (w.extractLsb' 16 1).setWidth 32

/-- What a sequence of mask calls owes to the entry of a line: the mask bit is the last mask
given for it, and no other bit changes. -/
def MasksEntry (out : Outside) (calls : List MaskCall) (line : U32) (b : Board) : Prop :=
  let b' := ((setMasks calls).exec (Board.access out) b).2
  (∀ i < 64, i ≠ 16 → (entry line b'.regs).getLsbD i = (entry line b.regs).getLsbD i) ∧
    maskBit (entry line b'.regs) = (lastMask line calls).getD (maskBit (entry line b.regs))

theorem entry_writeEntry (line : U32) (e : RedirEntry) (regs : U32 → U32) :
    entry line (writeEntry line e regs) = e.word := by
  rw [entry, writeEntry, Function.update_self, Function.update_of_ne (loReg_ne_hiReg line line),
    Function.update_self]
  rfl

theorem writesEntry (out : Outside) (line : U32) (e : RedirEntry) (b : Board) :
    WritesEntry out line e b := by
  unfold WritesEntry
  rw [exec_ioapicWriteRedir]
  refine ⟨?_, ?_, fun reg hlo hhi => ?_⟩
  · rw [exec_ioapicReadRedir]
    dsimp only
    rw [writeEntry, Function.update_self, Function.update_of_ne (loReg_ne_hiReg line line),
      Function.update_self]
    exact ofWords_words e
  · dsimp only
    rw [entry_writeEntry]
    exact fieldsAt_word e
  · dsimp only
    rw [writeEntry, Function.update_of_ne hhi, Function.update_of_ne hlo]

theorem extract_mask (hi lo : U32) : (hi ++ lo).extractLsb' 16 1 = lo.extractLsb' 16 1 :=
  BitVec.extractLsb'_append_eq_of_add_le (by decide)

theorem maskBit_maskWord (hi lo : U32) {mask : U32} (h : mask = 0 ∨ mask = 1) :
    maskBit (hi ++ maskWord lo mask) = mask := by
  have hbit : (maskWord lo mask).extractLsb' 16 1 = mask.extractLsb' 0 1 := by
    apply BitVec.eq_of_getLsbD_eq
    intro i hi
    obtain rfl : i = 0 := by omega
    have hget := getLsbD_maskWord lo mask (i := 16) (by decide)
    simpa [BitVec.getLsbD_extractLsb'] using hget
  rw [maskBit, extract_mask, hbit]
  rcases h with rfl | rfl
  · decide
  · decide

theorem masksEntry (out : Outside) {calls : List MaskCall}
    (hmasks : ∀ call ∈ calls, call.mask = 0 ∨ call.mask = 1) (line : U32) (b : Board) :
    MasksEntry out calls line b := by
  unfold MasksEntry
  dsimp only
  rw [regs_setMasks]
  obtain ⟨hlo, hhi⟩ := maskEntries line calls b.regs
  rw [entry, hlo, hhi]
  constructor
  · intro i hi hne
    rw [getLsbD_entry_maskedBy _ _ _ hi, if_neg hne]
    rfl
  · cases hlast : lastMask line calls with
    | none => rfl
    | some mask =>
      obtain ⟨call, hcall, rfl⟩ := lastMask_mem hlast
      exact maskBit_maskWord _ _ (hmasks call hcall)

end Contract

/-- An entry is read back as it was written, its fields lie where the layout has them, and a
write touches no other register. Over any sequence of mask calls an entry keeps all bits but
the mask, which is the last one given for its registers; lines that do not wrap have registers
of their own. -/
theorem redirection_table (out : Outside) :
    (∀ line e b, WritesEntry out line e b) ∧
    (∀ calls : List MaskCall, (∀ call ∈ calls, call.mask = 0 ∨ call.mask = 1) →
      ∀ line b, MasksEntry out calls line b) ∧
    (∀ line line', NoWrap line → NoWrap line' → (loReg line = loReg line' ↔ line = line')) :=
  ⟨fun line e b => writesEntry out line e b, fun _ hmasks line b => masksEntry out hmasks line b,
    fun _ _ h h' => loReg_inj h h'⟩

theorem redirection_table_masked :
    let calls : List MaskCall := [⟨0x0e, 1⟩, ⟨0x0f, 1⟩, ⟨0x0e, 0⟩]
    let b : Board := ⟨0, fun _ => 0x8083, fun _ => 0, fun _ => 0, true⟩
    (∀ call ∈ calls, call.mask = 0 ∨ call.mask = 1) ∧ MasksEntry (fun _ => default) calls 0x0e b ∧
      NoWrap 0x0e ∧ NoWrap 0x0f ∧ (loReg 0x0e = loReg 0x0f ↔ (0x0e : U32) = 0x0f) :=
  ⟨by decide, (redirection_table fun _ => default).2.1 _ (by decide) _ _, by unfold NoWrap; decide,
    by unfold NoWrap; decide,
    (redirection_table fun _ => default).2.2 _ _ (by unfold NoWrap; decide)
      (by unfold NoWrap; decide)⟩

section Halves

/-- Interrupts of the entry are delivered. -/
def Unmasked (w : BitVec 64) : Prop := w.extractLsb' 16 1 = 0

instance (w : BitVec 64) : Decidable (Unmasked w) := inferInstanceAs (Decidable (_ = _))

/-- Between and after the accesses of a program the entry of `line` is in `P`. -/
def EntryThroughout (out : Outside) (p : IoapicProg Unit) (line : U32) (b : Board)
    (P : BitVec 64 → Prop) : Prop :=
  p.Throughout (Board.access out) b fun b' => P (entry line b'.regs)

/-- Whenever the entry is unmasked, it is the one before the program or the one after it. -/
def NeverMixed (out : Outside) (p : IoapicProg Unit) (line : U32) (b : Board) : Prop :=
  EntryThroughout out p line b fun w => Unmasked w →
    w = entry line b.regs ∨ w = entry line (p.exec (Board.access out) b).2.regs

variable (out : Outside) (b : Board) (P : Board → Prop)

theorem throughout_selectReg (reg : U32) (next : Unit → IoapicProg Unit) :
    ((mmioWrite indexOffset reg).bind next).Throughout (Board.access out) b P ↔
      P b ∧ (next ()).Throughout (Board.access out) { b with index := reg } P :=
  Prog.throughout_op _ _ _ _ _

theorem throughout_writeData (value : U32) (next : Unit → IoapicProg Unit) :
    ((mmioWrite dataOffset value).bind next).Throughout (Board.access out) b P ↔
      P b ∧ (next ()).Throughout (Board.access out)
        { b with regs := Function.update b.regs b.index value } P :=
  Prog.throughout_op _ _ _ _ _

theorem throughout_readData (next : U32 → IoapicProg Unit) :
    ((mmioRead dataOffset).bind next).Throughout (Board.access out) b P ↔
      P b ∧ (next (b.regs b.index)).Throughout (Board.access out) b P :=
  Prog.throughout_op _ _ _ _ _

theorem throughout_mmioWrite (value : U32) :
    (mmioWrite dataOffset value).Throughout (Board.access out) b P ↔
      P b ∧ P { b with regs := Function.update b.regs b.index value } := by
  exact (Prog.throughout_op _ _ _ _ _).trans (and_congr_right' (Prog.throughout_pure _ _ _ _))

/-- The contents of an entry along a write: the old one, half of each, and the new one. -/
theorem entryThroughout_write (line : U32) (e : RedirEntry) (P : BitVec 64 → Prop) :
    EntryThroughout out (ioapicWriteRedir line e) line b P ↔
      P (entry line b.regs) ∧ P (b.regs (hiReg line) ++ e.lo) ∧ P e.word := by
  have hhalf : entry line (Function.update b.regs (loReg line) e.lo) =
      b.regs (hiReg line) ++ e.lo := by
    rw [entry, update_loReg_hiReg, Function.update_self]
  have hfull := entry_writeEntry line e b.regs
  unfold writeEntry at hfull
  rw [EntryThroughout, ioapicWriteRedir_eq]
  simp only [Prog.bind_eq, throughout_selectReg, throughout_writeData, throughout_mmioWrite,
    and_self_left, hhalf, hfull]

/-- The contents of an entry along a mask call: its high word never changes. -/
theorem entryThroughout_setMask (line mask : U32) (P : BitVec 64 → Prop) :
    EntryThroughout out (setMask line mask) line b P ↔
      P (entry line b.regs) ∧ P (entry line (maskEntry line mask b.regs)) := by
  rw [EntryThroughout, setMask_eq]
  simp only [Prog.bind_eq, throughout_selectReg, throughout_writeData, throughout_readData,
    throughout_mmioWrite, and_self_left, and_self, maskEntry_fold, maskEntry_writeBack]

theorem unmasked_half (hi : U32) (e : RedirEntry) : Unmasked (hi ++ e.lo) ↔ e.mask = 0 := by
  have hmask : e.lo.extractLsb' 16 1 = e.mask := by
    rw [← extract_mask e.hi e.lo]
    exact (fieldsAt_word e).mask
  rw [Unmasked, extract_mask, hmask]

theorem append_words_inj {hi hi' lo lo' : U32} :
    hi ++ lo = hi' ++ lo' ↔ hi = hi' ∧ lo = lo' := by
  constructor
  · intro h
    have hhi := congrArg (BitVec.extractLsb' 32 32) h
    have hlo := congrArg (BitVec.extractLsb' 0 32) h
    rw [BitVec.extractLsb'_append_eq_left, BitVec.extractLsb'_append_eq_left] at hhi
    rw [BitVec.extractLsb'_append_eq_right, BitVec.extractLsb'_append_eq_right] at hlo
    exact ⟨hhi, hlo⟩
  · rintro ⟨rfl, rfl⟩
    rfl

/-- A write mixes two entries unless the new one is masked or a word of it is the old one. -/
theorem neverMixed_write_iff (line : U32) (e : RedirEntry) :
    NeverMixed out (ioapicWriteRedir line e) line b ↔
      e.mask = 1 ∨ b.regs (hiReg line) = e.hi ∨ b.regs (loReg line) = e.lo := by
  have hhalf : (Unmasked (b.regs (hiReg line) ++ e.lo) →
      b.regs (hiReg line) ++ e.lo = entry line b.regs ∨ b.regs (hiReg line) ++ e.lo = e.word) ↔
      e.mask = 1 ∨ b.regs (hiReg line) = e.hi ∨ b.regs (loReg line) = e.lo := by
    have hmask : e.mask = 1 ↔ ¬ e.mask = 0 := by
      obtain h | h := BitVec.eq_zero_or_eq_one e.mask <;> simp [h]
    rw [unmasked_half, entry, word, append_words_inj, append_words_inj, hmask]
    tauto
  rw [NeverMixed, entryThroughout_write, exec_ioapicWriteRedir]
  dsimp only
  rw [entry_writeEntry, hhalf]
  simp

end Halves

/-- The entry that `set_ioapic_redir` writes. -/
def redirOf (vec : U32) (trigMode : TriggerMode) : RedirEntry :=
  ⟨vec.setWidth 8, 0, 0, 0, 0, 0, trigMode.bit, 0, 0, 0, 0⟩

/-- A write of an entry passes through the old one, the new low word under the old high word,
and the new one; it mixes them unless the new entry is masked or shares a word with the old
one. `set_mask` never does, `set_ioapic_redir` does unless the old destination is zero or the
low word stays. -/
theorem ioapicWriteRedir_halves (out : Outside) (line : U32) (b : Board) :
    (∀ e, EntryThroughout out (ioapicWriteRedir line e) line b fun w =>
      w = entry line b.regs ∨ w = b.regs (hiReg line) ++ e.lo ∨ w = e.word) ∧
    (∀ e, NeverMixed out (ioapicWriteRedir line e) line b ↔
      e.mask = 1 ∨ b.regs (hiReg line) = e.hi ∨ b.regs (loReg line) = e.lo) ∧
    (∀ mask, NeverMixed out (setMask line mask) line b) ∧
    (∀ vec trigMode, NeverMixed out (setIoapicRedir line vec trigMode) line b ↔
      b.regs (hiReg line) = 0 ∨ b.regs (loReg line) = (redirOf vec trigMode).lo) := by
  refine ⟨fun e => ?_, fun e => neverMixed_write_iff out b line e, fun mask => ?_,
    fun vec trigMode => ?_⟩
  · rw [entryThroughout_write]
    simp
  · rw [NeverMixed, entryThroughout_setMask, exec_setMask]
    simp
  · have hmask : (redirOf vec trigMode).mask = 0 := rfl
    have hhi : (redirOf vec trigMode).hi = 0 := by
      simp only [redirOf, RedirEntry.hi]
      decide
    have hwrite := neverMixed_write_iff out b line (redirOf vec trigMode)
    rw [hmask, hhi, or_iff_right (by decide)] at hwrite
    exact hwrite

/-- The entry of line 0x0e had destination 1 before the tests: between the two words of
`set_ioapic_redir(0x0e, 0x82, TRIGGER_LEVEL)` vector 0x82 goes there. -/
theorem setIoapicRedir_mixes :
    ¬ ∀ (out : Outside) (line vec : U32) (trigMode : TriggerMode) (b : Board),
      NeverMixed out (setIoapicRedir line vec trigMode) line b := by
  intro h
  let b : Board := ⟨0, Function.update (fun _ => 0) (hiReg 0x0e) 0x01000000, fun _ => 0, fun _ => 0,
    true⟩
  have hiff := (ioapicWriteRedir_halves (fun _ => default) 0x0e b).2.2.2 0x82 .level
  rcases hiff.mp (h _ _ _ _ _) with hhi | hlo
  · exact absurd hhi (by decide)
  · exact absurd hlo (by decide)

end PcmTest.Ioapic
